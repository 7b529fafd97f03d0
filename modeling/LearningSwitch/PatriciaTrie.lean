import LearningSwitch.PatriciaShape

namespace LearningSwitch

open BackTree

variable {α δ σ : Type}

/-- The whole trie: the default node at the head, and a tree for either value of bit 0. -/
def patTree (head : α) (side : Bool → BackTree α) : BackTree α :=
  .node head (side false) (side true)

section Tree

variable {head : α} {side : Bool → BackTree α} {go : α → Bool}

theorem mem_nodes_patTree {a : α} :
    a ∈ (patTree head side).nodes ↔ a = head ∨ ∃ b, a ∈ (side b).nodes := by
  simp [patTree, nodes]

theorem path_patTree (go : α → Bool) (head : α) (side : Bool → BackTree α) :
    (patTree head side).path go = head :: (side (go head)).path go := by
  rw [patTree, path]
  cases go head <;> rfl

theorem closest_patTree (go : α → Bool) (head : α) (side : Bool → BackTree α) :
    (patTree head side).closest go = (side (go head)).closest go := by
  rw [patTree, closest]
  cases go head <;> rfl

theorem relink_patTree (go : α → Bool) (b head : α) (side : Bool → BackTree α) :
    (patTree head side).relink go b =
      patTree head (Function.update side (go head) ((side (go head)).relink go b)) := by
  rw [patTree, relink]
  cases go head <;> simp [patTree]

theorem cuts_patTree {p x : α} {u : BackTree α} (h : Cuts go p x (side (go head)) u) :
    Cuts go p x (patTree head side) (patTree head (Function.update side (go head) u)) := by
  cases hgo : go head with
  | false =>
    rw [hgo] at h
    simpa [patTree] using Cuts.inLeft (r := side true) hgo h
  | true =>
    rw [hgo] at h
    simpa [patTree] using Cuts.inRight (l := side false) hgo h

theorem patTree_update (head : α) (side : Bool → BackTree α) (b : Bool) (u : BackTree α) :
    (if b then .node head (side !b) u else .node head u (side !b)) =
      patTree head (Function.update side b u) := by
  cases b <;> simp [patTree]

theorem nodes_patTree_perm (head : α) (side : Bool → BackTree α) (b : Bool) (u : BackTree α) :
    (patTree head (Function.update side b u)).nodes.Perm
      (head :: (u.nodes ++ (side !b).nodes)) := by
  cases b with
  | false => simp [patTree, nodes]
  | true => simpa [patTree, nodes] using List.perm_append_comm

/-- What a side gains and loses, the whole gains and loses. -/
theorem nodes_update_perm (head : α) (lost gained : List α) {b : Bool} {u : BackTree α}
    (h : (lost ++ u.nodes).Perm (gained ++ (side b).nodes)) :
    (lost ++ (patTree head (Function.update side b u)).nodes).Perm
      (gained ++ (patTree head side).nodes) := by
  have hold := nodes_patTree_perm head side b (side b)
  rw [Function.update_eq_self] at hold
  have hrest := (h.append_right (side !b).nodes).cons head
  rw [List.append_assoc, List.append_assoc] at hrest
  refine ((nodes_patTree_perm head side b u).append_left lost).trans ?_
  exact ((List.perm_middle.trans hrest).trans List.perm_middle.symm).trans
    (hold.append_left gained).symm

theorem backTo_patTree_iff {above : List α} :
    BackTo above (patTree head side) ↔ ∀ b, BackTo (head :: above) (side b) := by
  rw [patTree, BackTo, Bool.forall_bool]

end Tree

/-- The shape of the trie. On each side the keys are told apart by their bits 1 to 31, and the key
of the head counts on both sides. -/
structure PatHeap.Trie (s : PatHeap α δ) (head : α) (side : Bool → BackTree α) : Prop where
  links : s.Links (some head) (patTree head side)
  nodup : (patTree head side).nodes.Nodup
  backTo : BackTo [] (patTree head side)
  posHead : s.pos head = 0
  keyHead : s.key head = 0
  sorted : ∀ b, Sorted s.pos s.bits 0 0 (side b)
  backs : ∀ b, (side b).backs.Perm (head :: (side b).nodes)
  keys : ∀ b, ∀ a ∈ (side b).nodes, (s.key a).toNat < 2 ^ 32 ∧ keyBit (s.key a) 0 = b
  high : ∀ b, ∀ a ∈ (side b).nodes, s.pos a ≤ 31

section Trie

variable {s : PatHeap α δ} {head : α} {side : Bool → BackTree α}

theorem keyBit_zero (i : Int) : keyBit 0 i = false :=
  Nat.zero_testBit _

theorem PatHeap.Trie.exists_node (h : s.Trie head side) {a : α}
    (ha : a ∈ (patTree head side).nodes) : ∃ c, s.node a = some c :=
  h.links.exists_node a ha

theorem PatHeap.Trie.head_mem (_ : s.Trie head side) : head ∈ (patTree head side).nodes :=
  mem_nodes_patTree.mpr (Or.inl rfl)

/-- The shape is a matter of keys, positions and links. -/
theorem PatHeap.Trie.congr (h : s.Trie head side) {s' : PatHeap α δ}
    (hsame : ∀ a ∈ (patTree head side).nodes, ∀ c, s.node a = some c →
      ∃ c', s'.node a = some c' ∧ c'.pKey = c.pKey ∧ c'.pB = c.pB ∧ c'.child = c.child) :
    s'.Trie head side := by
  have hpos : ∀ a ∈ (patTree head side).nodes, s'.pos a = s.pos a := by
    intro a ha
    obtain ⟨c, hc⟩ := h.exists_node ha
    obtain ⟨c', hc', _, hB, _⟩ := hsame a ha c hc
    rw [PatHeap.pos_eq hc, PatHeap.pos_eq hc', hB]
  have hkey : ∀ a ∈ (patTree head side).nodes, s'.key a = s.key a := by
    intro a ha
    obtain ⟨c, hc⟩ := h.exists_node ha
    obtain ⟨c', hc', hk, _⟩ := hsame a ha c hc
    rw [PatHeap.key_eq hc, PatHeap.key_eq hc', hk]
  have hmem : ∀ b, ∀ a ∈ (side b).nodes, a ∈ (patTree head side).nodes := fun b a ha =>
    mem_nodes_patTree.mpr (Or.inr ⟨b, ha⟩)
  refine ⟨?_, h.nodup, h.backTo, ?_, ?_, fun b => ?_, h.backs, fun b a ha => ?_, fun b a ha => ?_⟩
  · refine h.links.congr fun a ha c hc => ?_
    obtain ⟨c', hc', _, _, hchild⟩ := hsame a ha c hc
    exact ⟨c', hc', hchild⟩
  · rw [hpos head h.head_mem, h.posHead]
  · rw [hkey head h.head_mem, h.keyHead]
  · refine (h.sorted b).congr (fun a ha => hpos a (hmem b a ha)) fun x hx => ?_
    have hxT : x ∈ (patTree head side).nodes := by
      rcases List.mem_cons.mp ((h.backs b).mem_iff.mp hx) with rfl | hx
      · exact h.head_mem
      · exact hmem b x hx
    rw [PatHeap.bits, PatHeap.bits, hkey x hxT]
  · rw [hkey a (hmem b a ha)]
    exact h.keys b a ha
  · rw [hpos a (hmem b a ha)]
    exact h.high b a ha

theorem PatHeap.Trie.side_ne_head (h : s.Trie head side) {b : Bool} {a : α}
    (ha : a ∈ (side b).nodes) : a ≠ head := by
  rintro rfl
  have hnodup := h.nodup
  rw [patTree, nodes, List.nodup_cons, List.mem_append, not_or] at hnodup
  cases b with
  | false => exact hnodup.1.1 ha
  | true => exact hnodup.1.2 ha

theorem PatHeap.Trie.side_nodup (h : s.Trie head side) (b : Bool) : (side b).nodes.Nodup := by
  have hnodup := h.nodup
  rw [patTree, nodes, List.nodup_cons, List.nodup_append] at hnodup
  cases b with
  | false => exact hnodup.2.1
  | true => exact hnodup.2.2.1

theorem PatHeap.Trie.side_disjoint (h : s.Trie head side) {b : Bool} {a : α}
    (ha : a ∈ (side b).nodes) : a ∉ (side !b).nodes := by
  intro hin
  have hbit := (h.keys _ a hin).2
  rw [(h.keys b a ha).2] at hbit
  cases b <;> cases hbit

theorem PatHeap.Trie.key_lt (h : s.Trie head side) {a : α} (ha : a ∈ (patTree head side).nodes) :
    (s.key a).toNat < 2 ^ 32 := by
  rcases mem_nodes_patTree.mp ha with rfl | ⟨b, ha⟩
  · rw [h.keyHead]
    decide
  · exact (h.keys b a ha).1

theorem PatHeap.Trie.walkable (h : s.Trie head side) :
    s.Walkable (-1) (some head) (patTree head side) where
  links := h.links
  rises := by
    have hle : ∀ a ∈ [head], s.pos a ≤ s.pos head := by simp
    have hsorted : ∀ b, Sorted s.pos s.bits 0 (s.pos head) (side b) := by
      rw [h.posHead]
      exact h.sorted
    refine ⟨by rw [h.posHead]; decide, ?_, ?_⟩
    · exact (hsorted false).rises h.backTo.1 hle
    · exact (hsorted true).rises h.backTo.2 hle
  low := by omega
  high := by
    intro a ha
    rcases mem_nodes_patTree.mp ha with rfl | ⟨b, ha⟩
    · rw [h.posHead]
      decide
    · exact h.high b a ha
  live := by
    intro a ha
    rcases h.backTo.mem a ha with hin | hin
    · obtain ⟨c, hc⟩ := h.exists_node hin
      simp [hc]
    · cases hin

theorem PatHeap.Trie.path_short (h : s.Trie head side) (go : α → Bool) :
    ((patTree head side).path go).length ≤ 32 := by
  have hlen := h.walkable.length_path (by omega) go
  omega

theorem PatHeap.Trie.path_rises (h : s.Trie head side) (go : α → Bool) :
    ((patTree head side).path go).Pairwise fun a b => s.pos a < s.pos b := by
  rw [path_patTree, List.pairwise_cons]
  refine ⟨fun a ha => ?_, (h.sorted _).path_rises go⟩
  rw [h.posHead]
  exact (h.sorted _).lt_pos a (path_mem_nodes a ha)

theorem PatHeap.Trie.go_head (h : s.Trie head side) (key : UInt64) :
    s.go key head = keyBit key 0 := by
  rw [PatHeap.go, h.posHead]

theorem PatHeap.Trie.closest_mem (h : s.Trie head side) (key : UInt64) :
    (patTree head side).closest (s.go key) ∈ (patTree head side).nodes := by
  rcases h.backTo.mem _ (closest_mem_backs (s.go key) _) with hin | hin
  · exact hin
  · cases hin

/-- A walk for any key, from the head. -/
theorem PatHeap.Trie.descend (h : s.Trie head side) {key : UInt64} (hkey : key.toNat < 2 ^ 32)
    {visit : σ → α → Except PatFault σ} {v : σ → α → σ}
    (hvisit : ∀ seen, ∀ a ∈ (patTree head side).path (s.go key), visit seen a = .ok (v seen a))
    (seen : σ) : LearningSwitch.descend s key visit patSteps seen head =
      .ok (((patTree head side).path (s.go key)).foldl v seen,
        (patTree head side).closest (s.go key)) :=
  descend_ok h.walkable hkey hvisit (Nat.le_trans (h.path_short _) (by decide)) seen

/-- The walk for a key that the trie has ends at its node. -/
theorem PatHeap.Trie.closest_stored (h : s.Trie head side) {a : α}
    (ha : a ∈ (patTree head side).nodes) :
    (patTree head side).closest (s.go (s.key a)) = a := by
  rw [closest_patTree, h.go_head]
  have hback : a ∈ (side (keyBit (s.key a) 0)).backs := by
    rcases mem_nodes_patTree.mp ha with rfl | ⟨b, ha⟩
    · exact (h.backs _).mem_iff.mpr List.mem_cons_self
    · rw [(h.keys b a ha).2]
      exact (h.backs b).mem_iff.mpr (List.mem_cons_of_mem head ha)
  exact (h.sorted _).closest_eq hback fun _ _ => rfl

/-- It has passed the node before. -/
theorem PatHeap.Trie.mem_path (h : s.Trie head side) {a : α}
    (ha : a ∈ (patTree head side).nodes) : a ∈ (patTree head side).path (s.go (s.key a)) := by
  have hends := h.closest_stored ha
  generalize s.go (s.key a) = go at *
  rcases h.backTo.closest_mem with hin | hin
  · exact hends ▸ hin
  · cases hin

theorem PatHeap.Trie.key_inj (h : s.Trie head side) {a b : α}
    (ha : a ∈ (patTree head side).nodes) (hb : b ∈ (patTree head side).nodes)
    (hkey : s.key a = s.key b) : a = b := by
  rw [← h.closest_stored ha, hkey, h.closest_stored hb]

/-- The walk tells whether the trie has the key. -/
theorem PatHeap.Trie.stored_iff (h : s.Trie head side) (key : UInt64) :
    s.key ((patTree head side).closest (s.go key)) = key ↔
      ∃ a ∈ (patTree head side).nodes, s.key a = key := by
  constructor
  · intro hkey
    exact ⟨_, h.closest_mem key, hkey⟩
  · rintro ⟨a, ha, rfl⟩
    rw [h.closest_stored ha]

/-- The closest key agrees with the one searched for in bits 1 to 31 only if it is the key of the
head and the other is `0x80000000`. -/
theorem PatHeap.Trie.undivided_iff (h : s.Trie head side) {key : UInt64} (hkey : key.toNat < 2 ^ 32)
    (hnew : s.key ((patTree head side).closest (s.go key)) ≠ key) :
    (∀ i : Int, 1 ≤ i → i ≤ 31 →
      keyBit key i = keyBit (s.key ((patTree head side).closest (s.go key))) i) ↔
      key = 0x80000000 := by
  constructor
  · intro hsame
    have hmem := h.closest_mem key
    have hdiffer : keyBit key 0 ≠ keyBit (s.key ((patTree head side).closest (s.go key))) 0 := by
      intro hzero
      refine hnew (key_eq_of_bits (h.key_lt hmem) hkey fun i h0 h31 => ?_)
      by_cases hi : i = 0
      · rw [hi, hzero]
      · exact (hsame i (by omega) h31).symm
    -- the walk turned at the head as the key does, so it ended at the head
    have hhead : (patTree head side).closest (s.go key) = head := by
      have hback := closest_mem_backs (s.go key) (side (s.go key head))
      rw [← closest_patTree] at hback
      rcases List.mem_cons.mp ((h.backs _).mem_iff.mp hback) with heq | hin
      · exact heq
      · exact absurd ((h.keys _ _ hin).2.trans (h.go_head key)).symm hdiffer
    rw [hhead, h.keyHead] at hsame hdiffer
    refine key_eq_of_bits hkey (by decide) fun i h0 h31 => ?_
    by_cases hi : i = 0
    · have hset : keyBit key 0 = true := by simpa [keyBit_zero] using hdiffer
      rw [hi, hset]
      rfl
    · rw [hsame i (by omega) h31, keyBit_zero]
      have hone : (0x80000000 : UInt64).toNat = 2 ^ 31 := rfl
      rw [keyBit, hone, Nat.testBit_two_pow_of_ne (by omega)]
  · rintro rfl i h1 h31
    have hone : ∀ j : Int, 1 ≤ j → j ≤ 31 → keyBit 0x80000000 j = false := by
      intro j hj hj31
      have hpow : (0x80000000 : UInt64).toNat = 2 ^ 31 := rfl
      rw [keyBit, hpow, Nat.testBit_two_pow_of_ne (by omega)]
    have hhead : (patTree head side).closest (s.go 0x80000000) = head := by
      rw [closest_patTree]
      have hback : head ∈ (side (s.go 0x80000000 head)).backs :=
        (h.backs _).mem_iff.mpr List.mem_cons_self
      refine (h.sorted _).closest_eq hback fun a ha => ?_
      have hpos := (h.sorted _).lt_pos a ha
      rw [hone _ (by omega) (h.high _ a ha), PatHeap.bits, h.keyHead, keyBit_zero]
    rw [hhead, h.keyHead, keyBit_zero, hone i h1 h31]

/-- One side replaced; `s'` may hold other keys and positions there. -/
theorem PatHeap.Trie.update (h : s.Trie head side) {s' : PatHeap α δ} {b : Bool} {u : BackTree α}
    (hlinks : s'.Links (some head) (patTree head (Function.update side b u)))
    (hnodup : (patTree head (Function.update side b u)).nodes.Nodup) (hback : BackTo [head] u)
    (hother : ∀ a, a = head ∨ a ∈ (side !b).nodes → s'.pos a = s.pos a ∧ s'.key a = s.key a)
    (hsorted : Sorted s'.pos s'.bits 0 0 u) (hbacks : u.backs.Perm (head :: u.nodes))
    (hkeys : ∀ a ∈ u.nodes, (s'.key a).toNat < 2 ^ 32 ∧ keyBit (s'.key a) 0 = b)
    (hhigh : ∀ a ∈ u.nodes, s'.pos a ≤ 31) : s'.Trie head (Function.update side b u) := by
  have hboth : ∀ (P : Bool → BackTree α → Prop), P b u → P (!b) (side !b) →
      ∀ b', P b' (Function.update side b u b') := by
    intro P hu hside b'
    by_cases hb : b' = b
    · subst hb
      rwa [Function.update_self]
    · rw [Function.update_of_ne hb, Bool.eq_not_of_ne hb]
      exact hside
  refine ⟨hlinks, hnodup, backTo_patTree_iff.mpr ?_, ?_, ?_, ?_, ?_, ?_, ?_⟩
  · exact hboth (fun _ t => BackTo [head] t) hback (backTo_patTree_iff.mp h.backTo _)
  · rw [(hother head (Or.inl rfl)).1, h.posHead]
  · rw [(hother head (Or.inl rfl)).2, h.keyHead]
  · refine hboth (fun _ t => Sorted s'.pos s'.bits 0 0 t) hsorted ?_
    refine (h.sorted _).congr (fun a ha => (hother a (Or.inr ha)).1) fun x hx => ?_
    rw [PatHeap.bits, PatHeap.bits, (hother x (List.mem_cons.mp ((h.backs _).mem_iff.mp hx))).2]
  · exact hboth (fun _ t => t.backs.Perm (head :: t.nodes)) hbacks (h.backs _)
  · refine hboth (fun b' t => ∀ a ∈ t.nodes, (s'.key a).toNat < 2 ^ 32 ∧ keyBit (s'.key a) 0 = b')
      hkeys fun a ha => ?_
    rw [(hother a (Or.inr ha)).2]
    exact h.keys _ a ha
  · refine hboth (fun _ t => ∀ a ∈ t.nodes, s'.pos a ≤ 31) hhigh fun a ha => ?_
    rw [(hother a (Or.inr ha)).1]
    exact h.high _ a ha

/-- The default node has the key 0, and it alone the position 0. -/
theorem PatHeap.Trie.pB_eq_zero_iff (h : s.Trie head side) {t : α}
    (ht : t ∈ (patTree head side).nodes) {ct : Ptree α δ} (hct : s.node t = some ct) :
    ct.pB = 0 ↔ ct.pKey = 0 := by
  constructor
  · intro hB
    rcases mem_nodes_patTree.mp ht with rfl | ⟨b, hin⟩
    · rw [← PatHeap.key_eq hct, h.keyHead]
    · have hpos := (h.sorted b).lt_pos t hin
      rw [PatHeap.pos_eq hct, hB] at hpos
      exact absurd hpos (by decide)
  · intro hzero
    have hth : t = head := h.key_inj ht h.head_mem (by
      rw [PatHeap.key_eq hct, hzero, h.keyHead])
    have hpos := h.posHead
    rw [← hth, PatHeap.pos_eq hct] at hpos
    exact Int8.toInt_inj.mp hpos

/-- The new key differs from the closest one first at the node's position. -/
structure PatHeap.Divides (s : PatHeap α δ) (head : α) (side : Bool → BackTree α) (key : UInt64)
    (d : Int) : Prop where
  low : 1 ≤ d
  high : d ≤ 31
  agree : ∀ i, 1 ≤ i → i < d →
    keyBit key i = keyBit (s.key ((patTree head side).closest (s.go key))) i
  differ : keyBit (s.key ((patTree head side).closest (s.go key))) d = !keyBit key d

theorem PatHeap.Trie.side_walkable (h : s.Trie head side) {ch : Ptree α δ}
    (hh : s.node head = some ch) (b : Bool) : s.Walkable ch.pB.toInt (ch.child b) (side b) := by
  obtain ⟨_, _, hh', _, _, _, hchild⟩ := h.walkable.step
  obtain rfl := Option.some.inj (hh.symm.trans hh')
  cases b with
  | false => exact hchild false
  | true => exact hchild true

theorem PatHeap.Trie.side_short (h : s.Trie head side) (key : UInt64) :
    ((side (keyBit key 0)).path (s.go key)).length < patSteps := by
  have hshort := h.path_short (s.go key)
  rw [path_patTree, h.go_head, List.length_cons] at hshort
  rw [patSteps]
  omega

section Insert

variable [DecidableEq α] {n : α} {cn : Ptree α δ}

theorem insertNode_eq {key key' : UInt64} {d : Int} (hd : firstDiff key key' 31 1 = .ok d)
    (hkey : key.toNat < 2 ^ 32) {ch : Ptree α δ} (hh : s.node head = some ch)
    (hpos : ch.pB.toInt = 0) : insertNode s n head key key' =
      insertR s n d patSteps (ch.child (keyBit key 0)) head >>= fun x =>
        x.2.load head >>= fun ch =>
          .ok (x.2.store head (ch.setChild (keyBit key 0) (some x.1))) := by
  rw [insertNode, hd, StepRun.ok_bind, PatHeap.load_ok hh, StepRun.ok_bind, hpos,
    bitSet_ok hkey (by omega) (by omega), StepRun.ok_bind]

/-- The side stays sorted, with the node at the position where its key divides. -/
theorem PatHeap.Trie.sorted_insert (h : s.Trie head side) (hn : s.node n = some cn)
    (hfresh : n ∉ (patTree head side).nodes) {d : Int} (hd : s.Divides head side cn.pKey d) :
    Sorted (Function.update s.pos n d) s.bits 0 0
      ((side (keyBit cn.pKey 0)).insert (Function.update s.pos n d) s.bits n) := by
  have hne : ∀ a ∈ (side (keyBit cn.pKey 0)).nodes, a ≠ n := by
    rintro a ha rfl
    exact hfresh (mem_nodes_patTree.mpr (Or.inr ⟨_, ha⟩))
  have hold : Sorted (Function.update s.pos n d) s.bits 0 0 (side (keyBit cn.pKey 0)) :=
    (h.sorted _).congr (fun a ha => Function.update_of_ne (hne a ha) ..) fun _ _ => rfl
  have hclosest : (side (keyBit cn.pKey 0)).closest
      (fun a => s.bits n (Function.update s.pos n d a)) =
        (patTree head side).closest (s.go cn.pKey) := by
    rw [closest_patTree, h.go_head]
    refine closest_congr fun a ha => ?_
    rw [Function.update_of_ne (hne a ha), PatHeap.bits, PatHeap.key_eq hn, PatHeap.go]
  have hlow := hd.low
  refine hold.insert (Int.le_refl 0) ?_ ?_ ?_
  · rw [Function.update_self]
    omega
  · rw [Function.update_self, hclosest, PatHeap.bits, PatHeap.key_eq hn]
    exact fun i h0 hi => hd.agree i (by omega) hi
  · rw [Function.update_self, hclosest, PatHeap.bits, PatHeap.bits, PatHeap.key_eq hn]
    exact hd.differ

/-- The trie with the new node. -/
theorem PatHeap.Trie.inserted (h : s.Trie head side) (hn : s.node n = some cn)
    (hfresh : n ∉ (patTree head side).nodes) (hkey : cn.pKey.toNat < 2 ^ 32) {d : Int}
    (hd : s.Divides head side cn.pKey d) {b : Bool} (hb : keyBit cn.pKey 0 = b) {u : BackTree α}
    (hu : (side b).insert (Function.update s.pos n d) s.bits n = u) {s' : PatHeap α δ}
    (hins : s.Inserted n cn d (patTree head side) head (patTree head (Function.update side b u))
      s') : s'.Trie head (Function.update side b u) := by
  have hlow := hd.low
  have hpos : s'.pos = Function.update s.pos n d := by
    rw [← PatHeap.pos_place s n cn (by omega) hd.high]
    exact funext hins.data.pos
  have hkeys : s'.key = s.key := by
    rw [← PatHeap.key_place (d := d) hn]
    exact funext hins.data.key
  have hnodes : u.nodes.Perm (n :: (side b).nodes) := hu ▸ nodes_insert (side b)
  have hmem : ∀ a ∈ u.nodes, a = n ∨ a ∈ (side b).nodes := fun a ha =>
    List.mem_cons.mp (hnodes.mem_iff.mp ha)
  have hsorted := h.sorted_insert hn hfresh hd
  rw [hb, hu] at hsorted
  refine h.update hins.links ?_ ?_ ?_ ?_ ?_ ?_ ?_
  · have hperm := nodes_update_perm head [] [n] hnodes
    exact hperm.nodup_iff.mpr (List.nodup_cons.mpr ⟨hfresh, h.nodup⟩)
  · rw [← hu]
    exact (backTo_patTree_iff.mp h.backTo b).insert
  · intro a ha
    have han : a ≠ n := by
      rintro rfl
      refine hfresh (mem_nodes_patTree.mpr ?_)
      rcases ha with rfl | ha
      · exact Or.inl rfl
      · exact Or.inr ⟨_, ha⟩
    rw [hpos, hkeys, Function.update_of_ne han]
    exact ⟨rfl, rfl⟩
  · have hbits : s'.bits = s.bits := by
      funext a
      rw [PatHeap.bits, hkeys, PatHeap.bits]
    rw [hpos, hbits]
    exact hsorted
  · have hbacks : u.backs.Perm (n :: (side b).backs) := hu ▸ backs_insert (side b)
    exact (hbacks.trans ((h.backs b).cons n)).trans
      ((List.Perm.swap head n _).trans (hnodes.symm.cons head))
  · intro a ha
    rw [hkeys]
    rcases hmem a ha with rfl | ha
    · rw [PatHeap.key_eq hn]
      exact ⟨hkey, hb⟩
    · exact h.keys b a ha
  · intro a ha
    rw [hpos]
    by_cases han : a = n
    · rw [han, Function.update_self]
      exact hd.high
    · rw [Function.update_of_ne han]
      exact h.high b a ((hmem a ha).resolve_left han)

/-- A node whose key divides becomes part of the trie. -/
theorem insertNode_ok (h : s.Trie head side) (hn : s.node n = some cn)
    (hfresh : n ∉ (patTree head side).nodes) (hkey : cn.pKey.toNat < 2 ^ 32) {key' : UInt64}
    {d : Int} (hdiff : firstDiff cn.pKey key' 31 1 = .ok d)
    (hd : s.Divides head side cn.pKey d) :
    ∃ s' u, insertNode s n head cn.pKey key' = .ok s' ∧
      s'.Trie head (Function.update side (keyBit cn.pKey 0) u) ∧
      u.nodes.Perm (n :: (side (keyBit cn.pKey 0)).nodes) ∧
      (s.place n cn d).SameData s' ∧ s'.freed = s.freed := by
  obtain ⟨ch, hh⟩ := h.exists_node h.head_mem
  have hpos : ch.pB.toInt = 0 := (PatHeap.pos_eq hh).symm.trans h.posHead
  have hlow := hd.low
  have hnside : n ∉ (side (keyBit cn.pKey 0)).nodes := fun hin =>
    hfresh (mem_nodes_patTree.mpr (Or.inr ⟨_, hin⟩))
  obtain ⟨x, s₁, hrec, hins⟩ := insertR_ok hn hkey (by omega) hd.high
    (h.side_walkable hh (keyBit cn.pKey 0)) (h.side_nodup _) hnside hh rfl (h.side_short cn.pKey)
  generalize hb : keyBit cn.pKey 0 = b at *
  generalize hu : (side b).insert (Function.update s.pos n d) s.bits n = u at *
  have hnodes : u.nodes.Perm (n :: (side b).nodes) := hu ▸ nodes_insert (side b)
  have hwhole := patTree_update head side b (side b)
  rw [Function.update_eq_self] at hwhole
  obtain ⟨hh₁, hins⟩ := hins.graft b hnodes hh (h.side_walkable hh !b).links
    (hwhole ▸ h.nodup) (hwhole ▸ hfresh)
  rw [hwhole, patTree_update] at hins
  refine ⟨_, u, ?_, h.inserted hn hfresh hkey hd hb hu hins, hnodes, hins.data, hins.freed⟩
  rw [insertNode_eq hdiff hkey hh hpos, hb, hrec]
  show (s₁.load head >>= _) = _
  rw [PatHeap.load_ok hh₁]
  rfl

/-- A node for a new key becomes part of the trie, unless the key is `0x80000000`. -/
theorem insertNode_cases (h : s.Trie head side) (hn : s.node n = some cn)
    (hfresh : n ∉ (patTree head side).nodes) (hkey : cn.pKey.toNat < 2 ^ 32)
    (hnew : s.key ((patTree head side).closest (s.go cn.pKey)) ≠ cn.pKey) :
    (cn.pKey = 0x80000000 ∧ insertNode s n head cn.pKey
      (s.key ((patTree head side).closest (s.go cn.pKey))) = .error (.shift 32)) ∨
    (cn.pKey ≠ 0x80000000 ∧ ∃ s' u d, insertNode s n head cn.pKey
        (s.key ((patTree head side).closest (s.go cn.pKey))) = .ok s' ∧
      s'.Trie head (Function.update side (keyBit cn.pKey 0) u) ∧
      u.nodes.Perm (n :: (side (keyBit cn.pKey 0)).nodes) ∧
      (s.place n cn d).SameData s' ∧ s'.freed = s.freed) := by
  obtain ⟨d, hdiff, h1, h32, hsame, hdiffer⟩ :=
    firstDiff_cases hkey (h.key_lt (h.closest_mem cn.pKey)) 31 (i := 1) (by omega) (by omega)
  have hundivided := h.undivided_iff hkey hnew
  by_cases hd31 : d ≤ 31
  · right
    have hd : s.Divides head side cn.pKey d :=
      ⟨h1, hd31, hsame, hdiffer hd31⟩
    obtain ⟨s', u, hrest⟩ := insertNode_ok h hn hfresh hkey hdiff hd
    refine ⟨fun heq => ?_, s', u, d, hrest⟩
    have hequal := hundivided.mpr heq d h1 hd31
    rw [hd.differ] at hequal
    exact Bool.not_ne_self _ hequal.symm
  · left
    obtain ⟨ch, hh⟩ := h.exists_node h.head_mem
    have hpos : ch.pB.toInt = 0 := (PatHeap.pos_eq hh).symm.trans h.posHead
    have hd32 : d = 32 := by omega
    subst hd32
    refine ⟨hundivided.mp fun i hi hi31 => hsame i hi (by omega), ?_⟩
    rw [insertNode_eq hdiff hkey hh hpos, insertR_fault hn hkey (by omega)
      (h.side_walkable hh _) hh rfl (h.side_short cn.pKey)]
    rfl

end Insert

/-- Where the walk for the key of `t` ends: behind its parent and its grandparent. -/
theorem PatHeap.Trie.exists_parents (h : s.Trie head side) {b : Bool} {t : α}
    (ht : t ∈ (side b).nodes) : ∃ p u pre g, Cuts (s.go (s.key t)) p t (side b) u ∧
      (patTree head side).path (s.go (s.key t)) = pre ++ [g, p] := by
  have hgo : s.go (s.key t) head = b := by rw [h.go_head, (h.keys b t ht).2]
  rcases back_or_cuts (s.go (s.key t)) (side b) with ⟨y, hy⟩ | ⟨p, x, u, hcut⟩
  · rw [hy] at ht
    cases ht
  · have hclosest := h.closest_stored (mem_nodes_patTree.mpr (Or.inr ⟨b, ht⟩))
    rw [closest_patTree, hgo, hcut.closest] at hclosest
    subst hclosest
    obtain ⟨pre₀, hpre⟩ := hcut.path
    rcases List.eq_nil_or_concat (head :: pre₀) with hnil | ⟨pre, g, hsplit⟩
    · cases hnil
    · refine ⟨p, u, pre, g, hcut, ?_⟩
      rw [path_patTree, hgo, hpre, ← List.cons_append, hsplit]
      simp

theorem PatHeap.Trie.pos_range (h : s.Trie head side) {a : α}
    (ha : a ∈ (patTree head side).nodes) : 0 ≤ s.pos a ∧ s.pos a ≤ 31 := by
  rcases mem_nodes_patTree.mp ha with rfl | ⟨b, ha⟩
  · rw [h.posHead]
    omega
  · have hpos := (h.sorted b).lt_pos a ha
    exact ⟨by omega, h.high b a ha⟩

theorem PatHeap.Trie.bitSet_ok (h : s.Trie head side) {a : α} {c : Ptree α δ}
    (ha : a ∈ (patTree head side).nodes) (hc : s.node a = some c) {key : UInt64}
    (hkey : key.toNat < 2 ^ 32) : bitSet c.pB.toInt key = .ok (s.go key a) := by
  have hrange := h.pos_range ha
  rw [PatHeap.go, PatHeap.pos_eq hc]
  rw [PatHeap.pos_eq hc] at hrange
  exact LearningSwitch.bitSet_ok hkey hrange.1 hrange.2

/-- The node whose link leads back to `p`, as the walk from `p` on finds it. -/
theorem PatHeap.Trie.exists_link (h : s.Trie head side) {p : α}
    (hp : p ∈ (patTree head side).nodes) :
    ∃ pp way, (patTree head side).path (s.go (s.key p)) = way ++ [pp] ∧
      LearningSwitch.descend s (s.key p) (fun _ pt => .ok pt) patSteps p p = .ok (pp, p) := by
  have hclosest := h.closest_stored hp
  obtain ⟨pre, post, hpost⟩ := List.append_of_mem (h.mem_path hp)
  obtain ⟨lo, l, r, hwalk, hwpath, hwclosest⟩ := h.walkable.behind hpost
  rcases List.eq_nil_or_concat (p :: post) with hnil | ⟨way, pp, hway⟩
  · cases hnil
  refine ⟨pp, pre ++ way, ?_, ?_⟩
  · rw [hpost, hway]
    simp
  · have hshort := h.path_short (s.go (s.key p))
    have hfuel : ((BackTree.node p l r).path (s.go (s.key p))).length ≤ patSteps := by
      rw [hwpath]
      rw [hpost, List.length_append] at hshort
      exact Nat.le_trans (Nat.le_trans (Nat.le_add_left _ _) hshort) (by decide)
    rw [descend_ok hwalk (h.key_lt hp) (v := fun _ pt => pt) (fun _ _ _ => rfl) hfuel, hwpath, hway,
      hwclosest, hclosest]
    simp

section Remove

variable [DecidableEq α]

/-- `s'` holds what `s` held, except that `t` got the contents of `p`, which is gone. -/
structure PatHeap.Replaced (s : PatHeap α δ) (p t : α) (s' : PatHeap α δ) : Prop where
  gone : s'.node p = none
  others : ∀ a, a ≠ p → a ≠ t → (s'.node a).map Ptree.data = (s.node a).map Ptree.data
  taken : t ≠ p → ∃ cp ct c, s.node p = some cp ∧ s.node t = some ct ∧ s'.node t = some c ∧
    c.data = (cp.pKey, cp.pM, cp.pMlen, ct.pB)

/-- The state that `removeNode` ends in, once the two links are stored. -/
def PatHeap.moveUp (s : PatHeap α δ) (p t : α) (cp ct : Ptree α δ) (data : Option δ) :
    PatHeap α δ :=
  if t = p then (s.freeData data).free p
  else ((s.freeData data).store t
    { ct with pKey := cp.pKey, pM := cp.pM, pMlen := cp.pMlen }).free p

/-- The loads and the tests of a removal, and the two links that it stores. -/
theorem removeNode_eq {key : UInt64} {p t g pp x : α} {cp cpp cp₁ cg₁ cp₂ ct₂ : Ptree α δ}
    {s₁ s₂ : PatHeap α δ} {right₁ right₂ right₃ : Bool} {m : PtreeMask δ} (hcp : s.node p = some cp)
    (hdescend : descend s cp.pKey (fun _ pt => .ok pt) patSteps p p = .ok (pp, x))
    (hcpp : s.node pp = some cpp) (hright₁ : bitSet cpp.pB.toInt cp.pKey = .ok right₁)
    (hs₁ : s.store pp (cpp.setChild right₁ (some t)) = s₁) (hcg₁ : s₁.node g = some cg₁)
    (hright₂ : bitSet cg₁.pB.toInt key = .ok right₂) (hcp₁ : s₁.node p = some cp₁)
    (hright₃ : bitSet cp₁.pB.toInt key = .ok right₃)
    (hs₂ : s₁.store g (cg₁.setChild right₂ (cp₁.child !right₃)) = s₂)
    (hct₂ : s₂.node t = some ct₂) (hm : ct₂.firstMask = .ok m) (hcp₂ : s₂.node p = some cp₂) :
    removeNode s key g p t = .ok (s₂.moveUp p t cp₂ ct₂ m.pmData) := by
  rw [removeNode, PatHeap.load_ok hcp, StepRun.ok_bind, hdescend, StepRun.ok_bind]
  show (s.load pp >>= _) = _
  rw [PatHeap.load_ok hcpp, StepRun.ok_bind, hright₁, StepRun.ok_bind, hs₁]
  show (s₁.load g >>= _) = _
  rw [PatHeap.load_ok hcg₁, StepRun.ok_bind, hright₂, StepRun.ok_bind, PatHeap.load_ok hcp₁,
    StepRun.ok_bind, hright₃, StepRun.ok_bind, hs₂]
  show (s₂.load t >>= _) = _
  rw [PatHeap.load_ok hct₂, StepRun.ok_bind, hm, StepRun.ok_bind, PatHeap.moveUp]
  show (if t = p then _ else _) = _
  by_cases htp : t = p
  · rw [if_pos htp, if_pos htp]
  · rw [if_neg htp, if_neg htp]
    show ((s₂.freeData m.pmData).load p >>= _) = _
    rw [PatHeap.load_ok (s := s₂.freeData m.pmData) hcp₂]
    rfl

theorem PatHeap.moveUp_replaced {s₂ : PatHeap α δ} (hdata : s.SameData s₂) {p t : α}
    {cp ct cp₂ ct₂ : Ptree α δ} (hcp : s.node p = some cp) (hct : s.node t = some ct)
    (hcp₂ : s₂.node p = some cp₂) (hct₂ : s₂.node t = some ct₂) (data : Option δ) :
    s.Replaced p t (s₂.moveUp p t cp₂ ct₂ data) := by
  unfold PatHeap.moveUp
  by_cases htp : t = p
  · rw [if_pos htp]
    refine ⟨PatHeap.node_free_self .., fun a ha _ => ?_, fun hne => absurd htp hne⟩
    rw [PatHeap.node_free_ne _ ha]
    exact hdata a
  · rw [if_neg htp]
    refine ⟨PatHeap.node_free_self .., fun a ha hat => ?_, fun _ => ?_⟩
    · rw [PatHeap.node_free_ne _ ha, PatHeap.node_store_ne _ _ hat]
      exact hdata a
    · rw [PatHeap.node_free_ne _ htp]
      refine ⟨cp, ct, _, hcp, hct, PatHeap.node_store_self .., ?_⟩
      obtain ⟨_, hcp', hcpData⟩ := hdata.node hcp
      obtain ⟨_, hct', hctData⟩ := hdata.node hct
      obtain rfl := Option.some.inj (hcp₂.symm.trans hcp')
      obtain rfl := Option.some.inj (hct₂.symm.trans hct')
      simp only [Ptree.data, Prod.mk.injEq] at hctData hcpData ⊢
      exact ⟨hcpData.1, hcpData.2.1, hcpData.2.2.1, hctData.2.2.2⟩

/-- A tree without `p` is still there. -/
theorem PatHeap.moveUp_links {p t : α} {cp ct : Ptree α δ} (hct : s.node t = some ct)
    {q : Option α} {u : BackTree α} (hlinks : s.Links q u) (hp : p ∉ u.nodes) (data : Option δ) :
    (s.moveUp p t cp ct data).Links q u := by
  have hne : ∀ a ∈ u.nodes, a ≠ p := by
    rintro a ha rfl
    exact hp ha
  unfold PatHeap.moveUp
  by_cases htp : t = p
  · rw [if_pos htp]
    exact hlinks.frame fun a ha => PatHeap.node_free_ne _ (hne a ha)
  · rw [if_neg htp]
    refine hlinks.congr fun a ha c hc => ?_
    rw [PatHeap.node_free_ne _ (hne a ha)]
    by_cases hat : a = t
    · subst hat
      obtain rfl := Option.some.inj (hct.symm.trans hc)
      exact ⟨_, PatHeap.node_store_self .., rfl⟩
    · rw [PatHeap.node_store_ne _ _ hat]
      exact ⟨c, hc, rfl⟩

theorem PatHeap.freed_moveUp (s : PatHeap α δ) (p t : α) (cp ct : Ptree α δ) (data : Option δ) :
    (s.moveUp p t cp ct data).freed = s.freed ++ data.toList := by
  unfold PatHeap.moveUp
  split
  next => rfl
  next => rfl

/-- The three stores of a removal: the link to the parent led to `t`, the parent passed by, and
its contents moved. -/
theorem removeNode_run (h : s.Trie head side) {b : Bool} {t p g : α} {u : BackTree α}
    {pre : List α} (ht : t ∈ (side b).nodes) (hp : p ∈ (side b).nodes)
    (hcut : Cuts (s.go (s.key t)) p t ((side b).relink (s.go (s.key p)) t) u)
    (hpath : (patTree head side).path (s.go (s.key t)) = pre ++ [g, p]) {ct : Ptree α δ}
    {m : PtreeMask δ} (hct : s.node t = some ct) (hm : ct.firstMask = .ok m) :
    ∃ s', removeNode s (s.key t) g p t = .ok s' ∧
      s'.Links (some head) (patTree head (Function.update side b u)) ∧ s.Replaced p t s' ∧
      s'.freed = s.freed ++ m.pmData.toList := by
  have hgoHead : s.go (s.key t) head = b := by rw [h.go_head, (h.keys b t ht).2]
  have htT : t ∈ (patTree head side).nodes := mem_nodes_patTree.mpr (Or.inr ⟨b, ht⟩)
  have hpT : p ∈ (patTree head side).nodes := mem_nodes_patTree.mpr (Or.inr ⟨b, hp⟩)
  have hgT : g ∈ (patTree head side).nodes := mem_nodes_of_path hpath
  have hkeyT := h.key_lt htT
  obtain ⟨cp, hcp⟩ := h.exists_node hpT
  obtain ⟨pp, way, hway, hdescend⟩ := h.exists_link hpT
  have hppT : pp ∈ (patTree head side).nodes := mem_nodes_of_path hway
  obtain ⟨cpp, hcpp⟩ := h.exists_node hppT
  -- the link to the parent leads to `t`
  have hrelink := relink_patTree (s.go (s.key p)) t head side
  rw [h.go_head, (h.keys b p hp).2] at hrelink
  have hcutT : Cuts (s.go (s.key t)) p t
      (patTree head (Function.update side b ((side b).relink (s.go (s.key p)) t)))
      (patTree head (Function.update (Function.update side b
        ((side b).relink (s.go (s.key p)) t)) (s.go (s.key t) head) u)) :=
    cuts_patTree (by rwa [hgoHead, Function.update_self])
  rw [hgoHead, Function.update_idem, ← hrelink] at hcutT
  have hnodup := (nodes_relink (s.go (s.key p)) t (patTree head side)).symm ▸ h.nodup
  have hpu : p ∉ (patTree head (Function.update side b u)).nodes :=
    (List.nodup_cons.mp (hcutT.nodes.nodup_iff.mpr hnodup)).1
  have hlinks₁ := h.links.relink h.nodup hway hcpp t
  have hdata₁ := PatHeap.sameData_store hcpp
    (Ptree.data_setChild cpp (s.go (s.key p) pp) (some t))
  generalize hs₁ : s.store pp (cpp.setChild (s.go (s.key p) pp) (some t)) = s₁ at hdata₁ hlinks₁
  -- the grandparent passes the parent by
  obtain ⟨cg, hcg⟩ := h.exists_node hgT
  obtain ⟨cg₁, hcg₁, hcgData⟩ := hdata₁.node hcg
  obtain ⟨cp₁, hcp₁, hcpData⟩ := hdata₁.node hcp
  have hcgB : cg₁.pB = cg.pB := congrArg (·.2.2.2) hcgData
  have hcpB : cp₁.pB = cp.pB := congrArg (·.2.2.2) hcpData
  have hpath₁ := (path_relink (s.go (s.key p)) (s.go (s.key t)) t _).trans hpath
  have hlinks₂ := hlinks₁.cut hcutT hnodup hpath₁ hcg₁ hcp₁
  have hdata₂ := hdata₁.trans (PatHeap.sameData_store hcg₁
    (Ptree.data_setChild cg₁ (s.go (s.key t) g) (cp₁.child !s.go (s.key t) p)))
  generalize hs₂ : s₁.store g (cg₁.setChild (s.go (s.key t) g) (cp₁.child !s.go (s.key t) p)) = s₂
    at hdata₂ hlinks₂
  obtain ⟨ct₂, hct₂, hctData⟩ := hdata₂.node hct
  obtain ⟨cp₂, hcp₂, _⟩ := hdata₂.node hcp
  have hm₂ : ct₂.firstMask = .ok m := by
    rw [← hm, Ptree.firstMask, Ptree.firstMask, show ct₂.pM = ct.pM from congrArg (·.2.1) hctData]
  rw [PatHeap.key_eq hcp] at hdescend
  refine ⟨s₂.moveUp p t cp₂ ct₂ m.pmData, ?_, PatHeap.moveUp_links hct₂ hlinks₂ hpu _,
    PatHeap.moveUp_replaced hdata₂ hcp hct hcp₂ hct₂ _, ?_⟩
  · refine removeNode_eq hcp hdescend hcpp ?_ hs₁ hcg₁ ?_ hcp₁ ?_ hs₂ hct₂ hm₂ hcp₂
    · rw [← PatHeap.key_eq hcp]
      exact h.bitSet_ok hppT hcpp (h.key_lt hpT)
    · rw [hcgB]
      exact h.bitSet_ok hgT hcg hkeyT
    · rw [hcpB]
      exact h.bitSet_ok hpT hcp hkeyT
  · rw [PatHeap.freed_moveUp, ← hs₂, ← hs₁]
    rfl

omit [DecidableEq α] in
theorem PatHeap.Replaced.key_of_ne {p t : α} {s' : PatHeap α δ} (hr : s.Replaced p t s') {a : α}
    (hp : a ≠ p) (ht : a ≠ t) : s'.key a = s.key a :=
  (PatHeap.key_pos_congr (hr.others a hp ht)).1

omit [DecidableEq α] in
theorem PatHeap.Replaced.key_self {p t : α} {s' : PatHeap α δ} (hr : s.Replaced p t s')
    (ht : t ≠ p) : s'.key t = s.key p := by
  obtain ⟨cp, ct, c, hcp, _, hc, hdata⟩ := hr.taken ht
  rw [PatHeap.key_eq hcp, PatHeap.key_eq hc]
  exact congrArg (fun d => d.1) hdata

omit [DecidableEq α] in
theorem PatHeap.Replaced.pos {p t : α} {s' : PatHeap α δ} (hr : s.Replaced p t s') {a : α}
    (hp : a ≠ p) : s'.pos a = s.pos a := by
  by_cases ht : a = t
  · subst ht
    obtain ⟨cp, ct, c, _, hct, hc, hdata⟩ := hr.taken hp
    rw [PatHeap.pos_eq hct, PatHeap.pos_eq hc]
    exact congrArg (fun d => d.2.2.2.toInt) hdata
  · exact (PatHeap.key_pos_congr (hr.others a hp ht)).2

/-- A node but the head goes: afterwards its key is no longer in the trie, and the memory that is
freed is its parent's. -/
theorem removeNode_ok (h : s.Trie head side) {b : Bool} {t : α} (ht : t ∈ (side b).nodes)
    {ct : Ptree α δ} {m : PtreeMask δ} (hct : s.node t = some ct) (hm : ct.firstMask = .ok m) :
    ∃ pre g p u s', (patTree head side).path (s.go (s.key t)) = pre ++ [g, p] ∧
      removeNode s (s.key t) g p t = .ok s' ∧ s'.Trie head (Function.update side b u) ∧
      (p :: u.nodes).Perm (side b).nodes ∧ s.Replaced p t s' ∧ s.pos t ≤ s.pos p ∧
      s'.freed = s.freed ++ m.pmData.toList := by
  obtain ⟨p, u₀, pre, g, hcut, hpath⟩ := h.exists_parents ht
  have hp : p ∈ (side b).nodes := hcut.nodes.mem_iff.mp List.mem_cons_self
  have hpT : p ∈ (patTree head side).nodes := mem_nodes_patTree.mpr (Or.inr ⟨b, hp⟩)
  have htT : t ∈ (patTree head side).nodes := mem_nodes_patTree.mpr (Or.inr ⟨b, ht⟩)
  have hgoP : s.go (s.key p) head = b := by rw [h.go_head, (h.keys b p hp).2]
  have hclosest := h.closest_stored hpT
  rw [closest_patTree, hgoP] at hclosest
  obtain ⟨u, hcut', hnodes, hbacks, hback, hsorted⟩ := hcut.exists_moved hclosest (h.sorted b)
  obtain ⟨s', hrun, hlinks, hreplaced, hfreed⟩ := removeNode_run h ht hp hcut' hpath hct hm
  have hperm := nodes_update_perm head [p] [] hnodes
  have hnodup : (patTree head (Function.update side b u)).nodes.Nodup :=
    (List.nodup_cons.mp (hperm.nodup_iff.mpr h.nodup)).2
  have hmem : ∀ a ∈ u.nodes, a ∈ (side b).nodes ∧ a ≠ p := by
    intro a ha
    refine ⟨hnodes.mem_iff.mp (List.mem_cons_of_mem p ha), ?_⟩
    rintro rfl
    exact (List.nodup_cons.mp (hnodes.nodup_iff.mpr (h.side_nodup b))).1 ha
  have hkeyBits : ∀ a ∈ u.nodes, (s'.key a).toNat < 2 ^ 32 ∧ keyBit (s'.key a) 0 = b := by
    intro a ha
    obtain ⟨hin, hap⟩ := hmem a ha
    by_cases hat : a = t
    · rw [hat, hreplaced.key_self (hat ▸ hap)]
      exact h.keys b p hp
    · rw [hreplaced.key_of_ne hap hat]
      exact h.keys b a hin
  have htPath := h.mem_path htT
  have hle : s.pos t ≤ s.pos p := by
    have hrises := h.path_rises (s.go (s.key t))
    rw [hpath, List.append_cons, List.pairwise_append] at hrises
    rw [hpath, List.append_cons, List.mem_append] at htPath
    rcases htPath with hin | hin
    · exact (hrises.2.2 t hin p List.mem_cons_self).le
    · rw [List.mem_singleton.mp hin]
  refine ⟨pre, g, p, u, s', hpath, hrun, ?_, hnodes, hreplaced, hle, hfreed⟩
  refine h.update hlinks hnodup ?_ ?_ ?_ ?_ hkeyBits ?_
  · -- the way to the link of `p` passes the same nodes down to `p`, so it passes `t`
    refine hback [head] (backTo_patTree_iff.mp h.backTo b) (Or.inl ?_)
    have hsplit : (patTree head side).path (s.go (s.key t)) = (pre ++ [g]) ++ p :: [] := by
      simpa using hpath
    obtain ⟨post, hpost⟩ := path_shared h.nodup hsplit (h.mem_path hpT)
    have htin : t ∈ (patTree head side).path (s.go (s.key p)) := by
      rw [hpath] at htPath
      rw [hpost]
      simp only [List.mem_append, List.mem_cons, List.not_mem_nil, or_false] at htPath ⊢
      rcases htPath with hin | rfl | rfl
      · exact Or.inl (Or.inl hin)
      · exact Or.inl (Or.inr rfl)
      · exact Or.inr (Or.inl rfl)
    rw [path_patTree, hgoP] at htin
    exact List.mem_of_ne_of_mem (h.side_ne_head ht) htin
  · intro a ha
    have hne : ∀ c ∈ (side b).nodes, a ≠ c := by
      rintro c hc rfl
      rcases ha with rfl | ha
      · exact h.side_ne_head hc rfl
      · exact h.side_disjoint hc ha
    exact ⟨hreplaced.pos (hne p hp), hreplaced.key_of_ne (hne p hp) (hne t ht)⟩
  · refine Sorted.congr (hsorted s'.bits ?_ ?_) (fun a ha => hreplaced.pos (hmem a ha).2)
      fun _ _ => rfl
    · intro a hap hat
      rw [PatHeap.bits, hreplaced.key_of_ne hap hat, PatHeap.bits]
    · intro htp
      rw [PatHeap.bits, hreplaced.key_self htp, PatHeap.bits]
  · exact ((hbacks.trans (h.backs b)).trans
      ((hnodes.symm.cons head).trans (List.Perm.swap p head _))).cons_inv
  · intro a ha
    rw [hreplaced.pos (hmem a ha).2]
    exact h.high b a (hmem a ha).1

end Remove

end Trie

end LearningSwitch
