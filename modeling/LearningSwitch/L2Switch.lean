import Mathlib.Data.Nat.Digits.Defs
import LearningSwitch.FirstWriter
import LearningSwitch.Io

namespace LearningSwitch

abbrev EtherAddr := Fin 6 → UInt8

def broadcastAddr : EtherAddr := fun _ => 0xFF

/-- `ether_addr_union.as_int` after a store to `as_addr`; `pad` is what the two bytes that the
store does not cover hold. -/
def asInt (asAddr : EtherAddr) (pad : UInt16) : UInt64 :=
  .ofNat (Nat.ofDigits 256 ((List.ofFn asAddr).map UInt8.toNat) + 256 ^ 6 * pad.toNat)

structure L2Switch where
  l2AddrMap : UInt64 → Option UInt64

def L2Switch.empty : L2Switch where
  l2AddrMap := fun _ => none

variable {n : Nat}

def World.dAddr (w : World n) (m : Fin n) : EtherAddr := fun i => w.byte m i

def World.sAddr (w : World n) (m : Fin n) : EtherAddr := fun i => w.byte m (6 + i)

/-- Every path returns 0, so the pipeline goes on. -/
def componentLearn (l2 : L2Switch) (w : World n) (m : Fin n) (pad : UInt16) : L2Switch :=
  let portid : UInt32 := (w.mbuf m).pkt.inPort.toUInt32
  let srcAddrInt := asInt (w.sAddr m) pad
  if srcAddrInt = l2Broadcast then l2
  else
    match l2.l2AddrMap srcAddrInt with
    | none => { l2 with l2AddrMap := Function.update l2.l2AddrMap srcAddrInt (some portid.toUInt64) }
    | some _ => l2

/-- A miss is logged and `query->second` read all the same. -/
def L2Switch.find (l2 : L2Switch) (w : World n) (m : Fin n) (pad : UInt16) : Except Fault UInt32 :=
  let dstAddrInt := asInt (w.dAddr m) pad
  if dstAddrInt = l2Broadcast then .ok floodPort
  else
    match l2.l2AddrMap dstAddrInt with
    | none => .error .endDeref
    | some port => .ok port.toUInt32

def componentRoute (l2 : L2Switch) (w : World n) (m : Fin n) (pad : UInt16) :
    Except Fault (World n) := do
  let outputPort ← l2.find w m pad
  .ok (pushHeader w m outputPort)

theorem asInt_toNat (a : EtherAddr) (pad : UInt16) :
    (asInt a pad).toNat =
      Nat.ofDigits 256 ((List.ofFn a).map UInt8.toNat) + 256 ^ 6 * pad.toNat ∧
    Nat.ofDigits 256 ((List.ofFn a).map UInt8.toNat) < 256 ^ 6 := by
  have hdigits : Nat.ofDigits 256 ((List.ofFn a).map UInt8.toNat) <
      256 ^ ((List.ofFn a).map UInt8.toNat).length := by
    refine Nat.ofDigits_lt_base_pow_length (by decide) fun x hx => ?_
    obtain ⟨b, _, rfl⟩ := List.mem_map.mp hx
    exact b.toNat_lt
  rw [List.length_map, List.length_ofFn] at hdigits
  have hpad : pad.toNat < 65536 := pad.toNat_lt
  refine ⟨?_, hdigits⟩
  rw [asInt]
  refine UInt64.toNat_ofNat_of_lt' ?_
  show _ < 18446744073709551616
  omega

/-- The key determines the address and the padding it was made of. -/
theorem asInt_inj {a b : EtherAddr} {p q : UInt16} : asInt a p = asInt b q ↔ a = b ∧ p = q := by
  refine ⟨fun h => ?_, fun h => by rw [h.1, h.2]⟩
  obtain ⟨ha, hal⟩ := asInt_toNat a p
  obtain ⟨hb, hbl⟩ := asInt_toNat b q
  rw [h, hb] at ha
  have hpq : p.toNat = q.toNat := by omega
  have hdigits : Nat.ofDigits 256 ((List.ofFn a).map UInt8.toNat) =
      Nat.ofDigits 256 ((List.ofFn b).map UInt8.toNat) := by omega
  have hbytes : ∀ c : EtherAddr, ∀ x ∈ (List.ofFn c).map UInt8.toNat, x < 256 := by
    intro c x hx
    obtain ⟨y, _, rfl⟩ := List.mem_map.mp hx
    exact y.toNat_lt
  have hlists := Nat.ofDigits_inj_of_len_eq (by decide) (by rw [List.length_map, List.length_map,
    List.length_ofFn, List.length_ofFn]) (hbytes a) (hbytes b) hdigits
  have hofFn := List.map_injective_iff.mpr (fun x y h => UInt8.toNat_inj.mp h) hlists
  exact ⟨List.ofFn_injective hofFn, UInt16.toNat_inj.mp hpq⟩

theorem l2Broadcast_eq : l2Broadcast = asInt broadcastAddr 0 := by decide

theorem asInt_eq_l2Broadcast {a : EtherAddr} {p : UInt16} :
    asInt a p = l2Broadcast ↔ a = broadcastAddr ∧ p = 0 := by
  rw [l2Broadcast_eq, asInt_inj]

theorem componentLearn_broadcast (l2 : L2Switch) {w : World n} {m : Fin n} {pad : UInt16}
    (h : asInt (w.sAddr m) pad = l2Broadcast) : componentLearn l2 w m pad = l2 := by
  simp [componentLearn, h]

theorem componentLearn_insertNew (l2 : L2Switch) {w : World n} {m : Fin n} {pad : UInt16}
    (h : asInt (w.sAddr m) pad ≠ l2Broadcast) :
    (componentLearn l2 w m pad).l2AddrMap = FirstWriter.insertNew l2.l2AddrMap
      (asInt (w.sAddr m) pad, (w.mbuf m).pkt.inPort.toUInt32.toUInt64) := by
  unfold componentLearn FirstWriter.insertNew
  dsimp only
  rw [if_neg h]
  cases hkey : l2.l2AddrMap (asInt (w.sAddr m) pad) <;> simp

theorem find_broadcast (l2 : L2Switch) {w : World n} {m : Fin n} {pad : UInt16}
    (h : asInt (w.dAddr m) pad = l2Broadcast) : l2.find w m pad = .ok floodPort := by
  simp [L2Switch.find, h]

theorem find_of_ne (l2 : L2Switch) {w : World n} {m : Fin n} {pad : UInt16}
    (h : asInt (w.dAddr m) pad ≠ l2Broadcast) :
    l2.find w m pad =
      match l2.l2AddrMap (asInt (w.dAddr m) pad) with
      | none => .error .endDeref
      | some port => .ok port.toUInt32 := by
  simp [L2Switch.find, h]

theorem componentLearn_congr (l2 : L2Switch) {w₁ w₂ : World n} {m₁ m₂ : Fin n}
    (hport : (w₁.mbuf m₁).pkt.inPort = (w₂.mbuf m₂).pkt.inPort)
    (hsrc : w₁.sAddr m₁ = w₂.sAddr m₂) (pad : UInt16) :
    componentLearn l2 w₁ m₁ pad = componentLearn l2 w₂ m₂ pad := by
  rw [componentLearn, componentLearn, hport, hsrc]

theorem L2Switch.find_congr (l2 : L2Switch) {w₁ w₂ : World n} {m₁ m₂ : Fin n}
    (hdst : w₁.dAddr m₁ = w₂.dAddr m₂) (pad : UInt16) :
    l2.find w₁ m₁ pad = l2.find w₂ m₂ pad := by
  rw [L2Switch.find, L2Switch.find, hdst]

end LearningSwitch
