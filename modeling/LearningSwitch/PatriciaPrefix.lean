import Mathlib.Data.List.Induction
import LearningSwitch.PatriciaSearch

namespace LearningSwitch

open BackTree

variable {α δ : Type}

/-- The mask of `len` leading bits. -/
def netmask (len : Nat) : UInt64 :=
  .ofNat (2 ^ 32 - 2 ^ (32 - len))

theorem toNat_netmask (len : Nat) : (netmask len).toNat = 2 ^ 32 - 2 ^ (32 - len) := by
  rw [netmask, UInt64.toNat_ofNat']
  exact Nat.mod_eq_of_lt (Nat.lt_of_le_of_lt (Nat.sub_le _ _) (by decide))

theorem netmask_lt (len : Nat) : (netmask len).toNat < 2 ^ 32 := by
  have hpos := Nat.two_pow_pos (32 - len)
  rw [toNat_netmask]
  omega

theorem netmask_mono {len len' : Nat} (h : len ≤ len') : netmask len ≤ netmask len' := by
  have hpow : 2 ^ (32 - len') ≤ 2 ^ (32 - len) := Nat.pow_le_pow_right (by decide) (by omega)
  rw [UInt64.le_iff_toNat_le, toNat_netmask, toNat_netmask]
  omega

theorem keyBit_netmask {len : Nat} (hlen : len ≤ 32) {i : Int} (h0 : 0 ≤ i) (h31 : i ≤ 31) :
    keyBit (netmask len) i = decide (i < len) := by
  have hsplit : 2 ^ 32 - 2 ^ (32 - len) = 2 ^ (32 - len) * (2 ^ len - 1) := by
    rw [Nat.mul_sub, ← Nat.pow_add, Nat.sub_add_cancel hlen, Nat.mul_one]
  rw [keyBit, toNat_netmask, hsplit, Nat.testBit_two_pow_mul, Nat.testBit_two_pow_sub_one,
    ← Bool.decide_and, decide_eq_decide]
  omega

theorem keyBit_and (key mask : UInt64) (i : Int) :
    keyBit (key &&& mask) i = (keyBit key i && keyBit mask i) := by
  rw [keyBit, UInt64.toNat_and, Nat.testBit_and]
  rfl

/-- A key of `len` bits covers the addresses that start with them. -/
theorem masked_eq_iff {key k : UInt64} (hk : k.toNat < 2 ^ 32) {len : Nat} (hlen : len ≤ 32) :
    key &&& netmask len = k ↔
      (∀ i : Int, 0 ≤ i → i < len → keyBit key i = keyBit k i) ∧
      ∀ i : Int, len ≤ i → i ≤ 31 → keyBit k i = false := by
  have hbits : ∀ i : Int, 0 ≤ i → i ≤ 31 →
      keyBit (key &&& netmask len) i = (keyBit key i && decide (i < len)) := by
    intro i h0 h31
    rw [keyBit_and, keyBit_netmask hlen h0 h31]
  constructor
  · rintro rfl
    constructor
    · intro i h0 hi
      rw [hbits i h0 (by omega), decide_eq_true hi, Bool.and_true]
    · intro i hi h31
      rw [hbits i (by omega) h31, decide_eq_false (by omega), Bool.and_false]
  · rintro ⟨hsame, hzero⟩
    refine key_eq_of_bits (and_lt (netmask_lt len)) hk fun i h0 h31 => ?_
    rw [hbits i h0 h31]
    by_cases hi : i < len
    · rw [decide_eq_true hi, Bool.and_true, hsame i h0 hi]
    · rw [decide_eq_false hi, Bool.and_false, hzero i (by omega) h31]

/-- Each key of the table has one mask, of `len` leading bits. -/
structure PatTable.Routes (T : PatTable δ) (len : UInt64 → Nat) : Prop where
  single : ∀ k, ∀ m ∈ T.masks k, T.masks k = [m] ∧ m.pmMask = netmask (len k)
  le : ∀ k, len k ≤ 32
  default : T.masks 0 ≠ [] ∧ len 0 = 0

/-- Besides, its node tests a position within these bits. -/
structure PatHeap.Prefixes (s : PatHeap α δ) (head : α) (T : PatTable δ) (len : UInt64 → Nat) :
    Prop extends T.Routes len where
  above : ∀ a, s.node a ≠ none → a ≠ head → s.pos a < len (s.key a)

section Search

variable {s : PatHeap α δ} {head : α} {T : PatTable δ} {side : Bool → BackTree α}
  {len : UInt64 → Nat} {key : UInt64} {a b : α}

theorem PatHeap.Trie.mem_backs (h : s.Trie head side)
    (ha : a ∈ (patTree head side).nodes) (b : Bool) (hbit : a = head ∨ keyBit (s.key a) 0 = b) :
    a ∈ (side b).backs := by
  rcases mem_nodes_patTree.mp ha with rfl | ⟨b', hin⟩
  · exact (h.backs b).mem_iff.mpr List.mem_cons_self
  · rcases hbit with rfl | hbit
    · exact (h.backs b).mem_iff.mpr List.mem_cons_self
    · rw [(h.keys b' a hin).2] at hbit
      exact (h.backs b).mem_iff.mpr (List.mem_cons_of_mem head (hbit ▸ hin))

theorem PatHeap.Trie.owns (h : s.Trie head side) (b : Bool) : Owns (side b) := by
  refine owns_of_backTo (backTo_patTree_iff.mp h.backTo b) (h.side_nodup b) ?_ ?_
  · intro a ha hin
    exact h.side_ne_head ha (List.mem_singleton.mp hin)
  · exact fun a ha => (h.backs b).mem_iff.mpr (List.mem_cons_of_mem head ha)

/-- The node `a` covers the address. -/
def PatHeap.Covering (s : PatHeap α δ) (len : UInt64 → Nat) (key : UInt64) (a : α) : Prop :=
  s.node a ≠ none ∧ key &&& netmask (len (s.key a)) = s.key a

theorem PatHeap.Prefixes.covers_iff (hp : s.Prefixes head T len) (h : s.Holds head T)
    (ha : s.node a ≠ none) : s.covers key a = .ok true ↔ s.Covering len key a := by
  obtain ⟨m, ms, hms, hcovers⟩ := h.covers_ok ha key
  obtain ⟨_, hm⟩ := hp.single _ m (hms ▸ List.mem_cons_self)
  rw [hcovers, Except.ok.injEq, beq_iff_eq, hm, eq_comm]
  exact ⟨fun heq => ⟨ha, heq⟩, fun hc => hc.2⟩

theorem PatHeap.Prefixes.covering_head (hp : s.Prefixes head T len) (h : s.Trie head side) :
    s.Covering len key head := by
  obtain ⟨c, hc⟩ := h.exists_node h.head_mem
  have hzero : netmask 0 = 0 := by decide
  refine ⟨by simp [hc], ?_⟩
  rw [h.keyHead, hp.default.2, hzero, UInt64.and_zero]

/-- What a covering node is good for: its bits are those of the address. -/
theorem PatHeap.Covering.bits (hc : s.Covering len key a) (hp : s.Prefixes head T len)
    (h : s.Trie head side) (ha : a ∈ (patTree head side).nodes) :
    (∀ i : Int, 0 ≤ i → i < len (s.key a) → keyBit key i = s.bits a i) ∧
      ∀ i : Int, len (s.key a) ≤ i → i ≤ 31 → s.bits a i = false :=
  (masked_eq_iff (h.key_lt ha) (hp.le _)).mp hc.2

theorem PatHeap.Covering.pos_lt (hc : s.Covering len key a) (hp : s.Prefixes head T len)
    (hhead : a ≠ head) : s.pos a < len (s.key a) :=
  hp.above a hc.1 hhead

theorem PatHeap.Covering.mem_backs (hc : s.Covering len key a) (hp : s.Prefixes head T len)
    (h : s.Trie head side) (ha : a ∈ (patTree head side).nodes) :
    a ∈ (side (keyBit key 0)).backs := by
  refine h.mem_backs ha _ ?_
  by_cases hhead : a = head
  · exact Or.inl hhead
  · have hpos := hc.pos_lt hp hhead
    have h0 := (h.pos_range ha).1
    exact Or.inr ((hc.bits hp h ha).1 0 (by omega) (by omega)).symm

/-- The search passes every node that covers the address. -/
theorem PatHeap.Covering.mem_path (hc : s.Covering len key a) (hp : s.Prefixes head T len)
    (h : s.Trie head side) (ha : a ∈ (patTree head side).nodes) :
    a ∈ (patTree head side).path (s.go key) := by
  by_cases hhead : a = head
  · rw [hhead, path_patTree]
    exact List.mem_cons_self
  have hpos := hc.pos_lt hp hhead
  have hsame := (hc.bits hp h ha).1
  have h0 := (h.pos_range ha).1
  have hbit : keyBit key 0 = keyBit (s.key a) 0 := hsame 0 (by omega) (by omega)
  have hown := h.mem_path ha
  rw [path_patTree, h.go_head] at hown ⊢
  refine List.mem_cons_of_mem head ?_
  rw [hbit]
  refine (h.sorted _).mem_path (List.mem_of_ne_of_mem hhead hown) fun b hb hlt => ?_
  have hb0 := (h.sorted _).lt_pos b hb
  exact hsame _ (by omega) (by omega)

/-- Longer prefixes that cover the address come later. -/
theorem PatHeap.Covering.pos_mono (hc : s.Covering len key a) (hc' : s.Covering len key b)
    (hp : s.Prefixes head T len) (h : s.Trie head side) (ha : a ∈ (patTree head side).nodes)
    (hb : b ∈ (patTree head side).nodes) (hlen : len (s.key a) < len (s.key b)) :
    s.pos a < s.pos b := by
  have hbhead : b ≠ head := by
    rintro rfl
    rw [h.keyHead, hp.default.2] at hlen
    omega
  by_cases hahead : a = head
  · rcases mem_nodes_patTree.mp hb with heq | ⟨b', hin⟩
    · exact absurd heq hbhead
    · rw [hahead, h.posHead]
      exact (h.sorted b').lt_pos b hin
  by_contra hnot
  have hapos := hc.pos_lt hp hahead
  have hagree : Agree 0 (len (s.key a) : Int) (keyBit key) (s.bits a) := fun i h0 hi =>
    (hc.bits hp h ha).1 i (by omega) hi
  have hagree' : Agree 0 (len (s.key a) : Int) (keyBit key) (s.bits b) := fun i h0 hi =>
    (hc'.bits hp h hb).1 i (by omega) (by omega)
  have hab : a = b := (h.sorted (keyBit key 0)).unique_above (le_refl 0) (h.owns _)
    (h.side_nodup _) (hc.mem_backs hp h ha) (hc'.mem_backs hp h hb) hagree hagree' hapos (by omega)
  rw [hab] at hlen
  omega

/-- If the node at the end of the walk covers the address, then no other prefix is longer. -/
theorem PatHeap.Prefixes.closest_longest (hp : s.Prefixes head T len) (h : s.Trie head side)
    (ht : s.Covering len key ((patTree head side).closest (s.go key)))
    (hc : s.Covering len key a) (ha : a ∈ (patTree head side).nodes) :
    len (s.key a) ≤ len (s.key ((patTree head side).closest (s.go key))) := by
  have hmem := h.closest_mem key
  have hbits := ht.bits hp h hmem
  have hback := ht.mem_backs hp h hmem
  have hclosest := closest_patTree (s.go key) head side
  rw [h.go_head] at hclosest
  by_contra hlt
  have hagree := (h.sorted (keyBit key 0)).closest_agree (le_refl 0) (hc.mem_backs hp h ha)
    (f := keyBit key) (d := len (s.key a)) fun i h0 hi => (hc.bits hp h ha).1 i (by omega) hi
  rw [show (side (keyBit key 0)).closest (fun a => keyBit key (s.pos a)) =
    (side (keyBit key 0)).closest (s.go key) from rfl, ← hclosest] at hagree
  generalize (patTree head side).closest (s.go key) = t at *
  -- behind the end of the longer prefix both keys have no bits
  have hsame : ∀ b ∈ (side (keyBit key 0)).nodes, s.bits a (s.pos b) = s.bits t (s.pos b) := by
    intro b hb
    have h0 := (h.sorted _).lt_pos b hb
    have h31 := h.high _ b hb
    by_cases hin : s.pos b < len (s.key a)
    · rw [← (hc.bits hp h ha).1 _ (by omega) hin, hagree _ h0 hin]
    · rw [(hc.bits hp h ha).2 _ (by omega) h31, hbits.2 _ (by omega) h31]
  have hends := (h.sorted (keyBit key 0)).closest_eq hback hsame
  rw [(h.sorted (keyBit key 0)).closest_eq (hc.mem_backs hp h ha) fun _ _ => rfl] at hends
  rw [hends] at hlt
  exact hlt (le_refl _)

/-- Along positions that rise, the fold keeps the last node that covers the key. -/
theorem foldl_cover_last {way : List α} (hrises : way.Pairwise fun a b => s.pos a < s.pos b)
    (hmem : a ∈ way) (hcovers : s.covers key a = .ok true) : ∃ b ∈ way,
      way.foldl (s.cover key) none = some b ∧ s.covers key b = .ok true ∧ s.pos a ≤ s.pos b := by
  induction way using List.reverseRecOn with
  | nil => cases hmem
  | append_singleton way x ih =>
    rw [List.pairwise_append] at hrises
    rw [List.foldl_append, List.foldl_cons, List.foldl_nil, PatHeap.cover]
    have hx : x ∈ way ++ [x] := List.mem_append_right way List.mem_cons_self
    by_cases hhit : s.covers key x = .ok true
    · rw [hhit]
      refine ⟨x, hx, rfl, hhit, ?_⟩
      rcases List.mem_append.mp hmem with hin | hin
      · exact (hrises.2.2 a hin x List.mem_cons_self).le
      · rw [List.mem_singleton.mp hin]
    · have hin : a ∈ way := by
        rcases List.mem_append.mp hmem with hin | hin
        · exact hin
        · rw [List.mem_singleton.mp hin] at hcovers
          exact absurd hcovers hhit
      obtain ⟨b, hb, hfold, hb', hle⟩ := ih hrises.1 hin
      refine ⟨b, List.mem_append_left [x] hb, ?_, hb', hle⟩
      split
      next htrue => exact absurd htrue hhit
      next => exact hfold

/-- The search answers with the longest prefix that covers the address. -/
theorem patSearch_longest (h : s.Holds head T) (hp : s.Prefixes head T len)
    (hkey : key.toNat < 2 ^ 32) : ∃ a m, patSearch s key (some head) = .ok (some a) ∧
      T.masks (s.key a) = [m] ∧ key &&& m.pmMask = s.key a ∧
      ∀ k, ∀ m' ∈ T.masks k, key &&& m'.pmMask = k → m'.pmMask ≤ m.pmMask := by
  obtain ⟨side, hshape, hnodes⟩ := h.shape
  have hpath : ∀ a, s.Covering len key a → a ∈ (patTree head side).path (s.go key) :=
    fun a ha => ha.mem_path hp hshape ((hnodes a).mpr ha.1)
  have hsearch := patSearch_eq h hshape hnodes hkey
  have hfound : ∃ a, patSearch s key (some head) = .ok (some a) ∧ s.Covering len key a ∧
      ∀ b, s.Covering len key b → len (s.key b) ≤ len (s.key a) := by
    have hlive := (hnodes _).mp (hshape.closest_mem key)
    by_cases hend : s.covers key ((patTree head side).closest (s.go key)) = .ok true
    · have hcovering := (hp.covers_iff h hlive).mp hend
      rw [PatHeap.cover, hend] at hsearch
      refine ⟨_, hsearch, hcovering, fun b hb => ?_⟩
      exact hp.closest_longest hshape hcovering hb ((hnodes b).mpr hb.1)
    · have hall : ∀ b, s.Covering len key b → s.covers key b = .ok true := fun b hb =>
        (hp.covers_iff h hb.1).mpr hb
      have hhead : s.Covering len key head := hp.covering_head hshape
      obtain ⟨a, hin, hfold, hcovers, _⟩ := foldl_cover_last (hshape.path_rises (s.go key))
        (hpath head hhead) (hall head hhead)
      have ha := (hnodes a).mp (path_mem_nodes a hin)
      have hcovering := (hp.covers_iff h ha).mp hcovers
      refine ⟨a, ?_, hcovering, fun b hb => ?_⟩
      · rw [hsearch, PatHeap.cover, hfold]
        split
        next htrue => exact absurd htrue hend
        next => rfl
      · obtain ⟨a', _, hfold', _, hle⟩ := foldl_cover_last (hshape.path_rises (s.go key))
          (hpath b hb) (hall b hb)
        obtain rfl := Option.some.inj (hfold.symm.trans hfold')
        by_contra hlt
        have hmono := hcovering.pos_mono hb hp hshape ((hnodes a).mpr ha) ((hnodes b).mpr hb.1)
          (by omega)
        omega
  obtain ⟨a, hrun, hcovering, hlongest⟩ := hfound
  obtain ⟨m, ms, hms, _⟩ := h.covers_ok hcovering.1 key
  obtain ⟨hsingle, hm⟩ := hp.single _ m (hms ▸ List.mem_cons_self)
  refine ⟨a, m, hrun, hsingle, hm ▸ hcovering.2, fun k m' hm' hk => ?_⟩
  obtain ⟨b, c, hc, hck⟩ := h.complete k (List.ne_nil_of_mem hm')
  have hkb : s.key b = k := (PatHeap.key_eq hc).trans hck
  have hmask := (hp.single k m' hm').2
  rw [hmask, hm]
  refine netmask_mono ?_
  rw [← hkb]
  refine hlongest b ⟨by simp [hc], ?_⟩
  rw [hkb, ← hmask, hk]

end Search

end LearningSwitch
