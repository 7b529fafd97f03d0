import Mathlib.Algebra.Group.Nat.Defs
import Mathlib.Data.Int.Order.Basic
import LearningSwitch.BackTree
import LearningSwitch.Patricia
import LearningSwitch.StepRun

namespace LearningSwitch

open BackTree

variable {α δ σ : Type}

/-- Bit `i` of an address, counted from the top of its 32 bits. -/
def keyBit (key : UInt64) (i : Int) : Bool :=
  key.toNat.testBit (31 - i).toNat

theorem testBit_high {key : UInt64} (hkey : key.toNat < 2 ^ 32) {j : Nat} (hj : 32 ≤ j) :
    key.toNat.testBit j = false :=
  Nat.testBit_lt_two_pow (Nat.lt_of_lt_of_le hkey (Nat.pow_le_pow_right (by omega) hj))

/-- The value of the bit where it is set. -/
def bitMask (i : Int) : UInt64 :=
  ⟨BitVec.twoPow 64 (31 - i).toNat⟩

theorem bitMask_ne_zero {i : Int} (h0 : 0 ≤ i) (h31 : i ≤ 31) : bitMask i ≠ 0 := by
  intro hzero
  have hvec : BitVec.twoPow 64 (31 - i).toNat = 0#64 := congrArg UInt64.toBitVec hzero
  have hbit := congrArg (fun v => v.getLsbD (31 - i).toNat) hvec
  simp only [BitVec.getLsbD_twoPow, BitVec.getLsbD_zero] at hbit
  simp at hbit
  omega

/-- Without an upper half, a key shows one bit under each mask, the one of bit 0 included. -/
theorem bit_ok {key : UInt64} (hkey : key.toNat < 2 ^ 32) {i : Int} (h0 : 0 ≤ i) (h31 : i ≤ 31) :
    bit i key = .ok (if keyBit key i then bitMask i else 0) := by
  rw [bit, if_pos ⟨h0, h31⟩]
  refine congrArg Except.ok (UInt64.toBitVec_inj.mp (BitVec.eq_of_getLsbD_eq fun j hj => ?_))
  show (key.toBitVec &&& (1#32 <<< (31 - i).toNat).signExtend 64).getLsbD j = _
  have hk : (31 - i).toNat < 64 := by omega
  rw [← BitVec.twoPow_eq, BitVec.getLsbD_and, BitVec.getLsbD_signExtend, ← BitVec.testBit_toNat]
  show (key.toNat.testBit j && _) = _
  have hvalue : (if keyBit key i then bitMask i else 0).toBitVec.getLsbD j =
      (keyBit key i && decide ((31 - i).toNat = j)) := by
    split
    next h => simp [bitMask, BitVec.getLsbD_twoPow, h, hk]
    next h => simp [h]
  rw [hvalue, keyBit]
  by_cases hij : (31 - i).toNat = j
  · subst hij
    have h32 : (31 - i).toNat < 32 := by omega
    simp [h32, hk]
  · by_cases hj32 : j < 32
    · have hji : j ≠ (31 - i).toNat := Ne.symm hij
      simp [hij, hj32, hji]
    · rw [testBit_high hkey (by omega)]
      simp [hij]

theorem bitSet_ok {key : UInt64} (hkey : key.toNat < 2 ^ 32) {i : Int} (h0 : 0 ≤ i)
    (h31 : i ≤ 31) : bitSet i key = .ok (keyBit key i) := by
  rw [bitSet, bit_ok hkey h0 h31, StepRun.ok_bind]
  cases keyBit key i with
  | false => rfl
  | true => simp [bitMask_ne_zero h0 h31]

theorem bitSet_fault {key : UInt64} {i : Int} (h : 31 < i) : bitSet i key = .error (.shift i) := by
  have hbit : bit i key = .error (.shift i) := if_neg (by omega)
  rw [bitSet, hbit]
  rfl

/-- The first position behind `i` where the keys differ, if there is one. -/
theorem firstDiff_cases {key key' : UInt64} (hkey : key.toNat < 2 ^ 32)
    (hkey' : key'.toNat < 2 ^ 32) (rounds : Nat) {i : Int} (h0 : 0 ≤ i) (hi : i + rounds = 32) :
    ∃ d, firstDiff key key' rounds i = .ok d ∧ i ≤ d ∧ d ≤ 32 ∧
      (∀ j, i ≤ j → j < d → keyBit key j = keyBit key' j) ∧
      (d ≤ 31 → keyBit key' d = !keyBit key d) := by
  induction rounds generalizing i with
  | zero =>
    refine ⟨i, rfl, Int.le_refl i, by omega, fun j hj hlt => by omega, fun h => ?_⟩
    omega
  | succ rounds ih =>
    rw [firstDiff, bit_ok hkey h0 (by omega), bit_ok hkey' h0 (by omega), StepRun.ok_bind,
      StepRun.ok_bind]
    have hmask := bitMask_ne_zero h0 (show i ≤ 31 by omega)
    by_cases hbit : keyBit key i = keyBit key' i
    · rw [hbit, if_pos rfl]
      obtain ⟨d, hd, hid, hd32, hsame, hdiffer⟩ := ih (by omega) (by omega : i + 1 + rounds = 32)
      refine ⟨d, hd, by omega, hd32, fun j hj hlt => ?_, hdiffer⟩
      by_cases hji : j = i
      · rw [hji]
        exact hbit
      · exact hsame j (by omega) hlt
    · have hne : (if keyBit key i then bitMask i else 0) ≠
          if keyBit key' i then bitMask i else 0 := by
        cases hk : keyBit key i with
        | false =>
          cases hk' : keyBit key' i with
          | false => exact absurd (hk.trans hk'.symm) hbit
          | true => simpa using hmask.symm
        | true =>
          cases hk' : keyBit key' i with
          | false => simpa using hmask
          | true => exact absurd (hk.trans hk'.symm) hbit
      rw [if_neg hne]
      refine ⟨i, rfl, Int.le_refl i, by omega, fun j hj hlt => by omega, fun _ => ?_⟩
      exact Bool.eq_not_of_ne (Ne.symm hbit)

/-- An address is its 32 bits. -/
theorem key_eq_of_bits {key key' : UInt64} (hkey : key.toNat < 2 ^ 32)
    (hkey' : key'.toNat < 2 ^ 32)
    (h : ∀ i : Int, 0 ≤ i → i ≤ 31 → keyBit key i = keyBit key' i) : key = key' := by
  refine UInt64.toNat_inj.mp (Nat.eq_of_testBit_eq fun j => ?_)
  by_cases hj : j < 32
  · have hbit := h (31 - j) (by omega) (by omega)
    rwa [keyBit, keyBit, show (31 - (31 - (j : Int))).toNat = j by omega] at hbit
  · rw [testBit_high hkey (by omega), testBit_high hkey' (by omega)]

/-- All of a node but its two links. -/
def Ptree.data (c : Ptree α δ) : UInt64 × Option (List (PtreeMask δ)) × UInt8 × Int8 :=
  (c.pKey, c.pM, c.pMlen, c.pB)

@[simp] theorem Ptree.data_setChild (c : Ptree α δ) (right : Bool) (p : Option α) :
    (c.setChild right p).data = c.data := by
  cases right <;> rfl

@[simp] theorem Ptree.child_setChild_self (c : Ptree α δ) (right : Bool) (p : Option α) :
    (c.setChild right p).child right = p := by
  cases right <;> rfl

@[simp] theorem Ptree.child_setChild_not (c : Ptree α δ) (right : Bool) (p : Option α) :
    (c.setChild right p).child (!right) = c.child !right := by
  cases right <;> rfl

def PatHeap.pos (s : PatHeap α δ) (a : α) : Int :=
  match s.node a with
  | none => 0
  | some c => c.pB.toInt

def PatHeap.key (s : PatHeap α δ) (a : α) : UInt64 :=
  match s.node a with
  | none => 0
  | some c => c.pKey

def PatHeap.bits (s : PatHeap α δ) (a : α) : Int → Bool :=
  keyBit (s.key a)

/-- The two heaps differ in links only. -/
def PatHeap.SameData (s s' : PatHeap α δ) : Prop :=
  ∀ a, (s'.node a).map Ptree.data = (s.node a).map Ptree.data

theorem PatHeap.pos_eq {s : PatHeap α δ} {a : α} {c : Ptree α δ} (h : s.node a = some c) :
    s.pos a = c.pB.toInt := by
  rw [PatHeap.pos, h]

theorem PatHeap.key_eq {s : PatHeap α δ} {a : α} {c : Ptree α δ} (h : s.node a = some c) :
    s.key a = c.pKey := by
  rw [PatHeap.key, h]

theorem PatHeap.load_ok {s : PatHeap α δ} {a : α} {c : Ptree α δ} (h : s.node a = some c) :
    s.load a = .ok c := by
  rw [PatHeap.load, h]

section SameData

variable {s s' s'' : PatHeap α δ}

theorem PatHeap.SameData.trans (h : s.SameData s') (h' : s'.SameData s'') : s.SameData s'' :=
  fun a => (h' a).trans (h a)

theorem PatHeap.SameData.node (h : s.SameData s') {a : α} {c : Ptree α δ}
    (hc : s.node a = some c) : ∃ c', s'.node a = some c' ∧ c'.data = c.data := by
  have ha := h a
  rw [hc, Option.map_some] at ha
  exact Option.map_eq_some_iff.mp ha

/-- Key and position of one node are a matter of its data. -/
theorem PatHeap.key_pos_congr {a : α} (h : (s'.node a).map Ptree.data = (s.node a).map Ptree.data) :
    s'.key a = s.key a ∧ s'.pos a = s.pos a := by
  cases hc : s.node a with
  | none =>
    rw [hc, Option.map_none, Option.map_eq_none_iff] at h
    rw [PatHeap.key, PatHeap.key, PatHeap.pos, PatHeap.pos, hc, h]
    exact ⟨rfl, rfl⟩
  | some c =>
    rw [hc, Option.map_some, Option.map_eq_some_iff] at h
    obtain ⟨c', hc', hdata⟩ := h
    rw [PatHeap.key_eq hc, PatHeap.key_eq hc', PatHeap.pos_eq hc, PatHeap.pos_eq hc']
    exact ⟨congrArg (fun d => d.1) hdata, congrArg (fun d => d.2.2.2.toInt) hdata⟩

theorem PatHeap.SameData.pos (h : s.SameData s') (a : α) : s'.pos a = s.pos a :=
  (PatHeap.key_pos_congr (h a)).2

theorem PatHeap.SameData.key (h : s.SameData s') (a : α) : s'.key a = s.key a :=
  (PatHeap.key_pos_congr (h a)).1

end SameData

/-- From the pointer `p` on, the nodes are linked as the tree says. -/
def PatHeap.Links (s : PatHeap α δ) : Option α → BackTree α → Prop
  | p, .back a => p = some a
  | p, .node a l r =>
    p = some a ∧ ∃ c, s.node a = some c ∧ s.Links (c.child false) l ∧ s.Links (c.child true) r

section Links

variable {s s' : PatHeap α δ} {t : BackTree α}

theorem PatHeap.Links.congr {p : Option α} (h : s.Links p t)
    (hlinks : ∀ a ∈ t.nodes, ∀ c, s.node a = some c →
      ∃ c', s'.node a = some c' ∧ c'.child = c.child) : s'.Links p t := by
  induction t generalizing p with
  | back a => exact h
  | node a l r ihl ihr =>
    obtain ⟨hp, c, hc, hl, hr⟩ := h
    obtain ⟨c', hc', hchild⟩ := hlinks a (by simp [nodes]) c hc
    refine ⟨hp, c', hc', ?_, ?_⟩
    · rw [hchild]
      exact ihl hl fun b hb => hlinks b (by simp [nodes, hb])
    · rw [hchild]
      exact ihr hr fun b hb => hlinks b (by simp [nodes, hb])

theorem PatHeap.Links.frame {p : Option α} (h : s.Links p t)
    (hsame : ∀ a ∈ t.nodes, s'.node a = s.node a) : s'.Links p t :=
  h.congr fun a ha c hc => ⟨c, (hsame a ha).trans hc, rfl⟩

theorem PatHeap.Links.exists_node {p : Option α} (h : s.Links p t) :
    ∀ a ∈ t.nodes, ∃ c, s.node a = some c := by
  induction t generalizing p with
  | back a => simp [nodes]
  | node a l r ihl ihr =>
    obtain ⟨_, c, hc, hl, hr⟩ := h
    intro b hb
    rw [nodes, List.mem_cons, List.mem_append] at hb
    rcases hb with rfl | hb | hb
    · exact ⟨c, hc⟩
    · exact ihl hl b hb
    · exact ihr hr b hb

end Links

variable [DecidableEq α]

@[simp] theorem PatHeap.node_store_self (s : PatHeap α δ) (a : α) (c : Ptree α δ) :
    (s.store a c).node a = some c :=
  Function.update_self ..

@[simp] theorem PatHeap.node_store_ne (s : PatHeap α δ) {a b : α} (c : Ptree α δ) (h : b ≠ a) :
    (s.store a c).node b = s.node b :=
  Function.update_of_ne h ..

@[simp] theorem PatHeap.freed_store (s : PatHeap α δ) (a : α) (c : Ptree α δ) :
    (s.store a c).freed = s.freed := rfl

@[simp] theorem PatHeap.node_free_self (s : PatHeap α δ) (a : α) : (s.free a).node a = none :=
  Function.update_self ..

@[simp] theorem PatHeap.node_free_ne (s : PatHeap α δ) {a b : α} (h : b ≠ a) :
    (s.free a).node b = s.node b :=
  Function.update_of_ne h ..

@[simp] theorem PatHeap.freed_free (s : PatHeap α δ) (a : α) : (s.free a).freed = s.freed := rfl

theorem PatHeap.sameData_store {s : PatHeap α δ} {a : α} {c : Ptree α δ} (h : s.node a = some c)
    {c' : Ptree α δ} (hdata : c'.data = c.data) : s.SameData (s.store a c') := by
  intro b
  by_cases hb : b = a
  · subst hb
    rw [PatHeap.node_store_self, h, Option.map_some, Option.map_some, hdata]
  · rw [PatHeap.node_store_ne s c' hb]

end LearningSwitch
