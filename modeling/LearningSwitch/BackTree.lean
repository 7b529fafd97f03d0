import Mathlib.Data.List.Nodup
import Mathlib.Data.List.Perm.Lattice
import Mathlib.Data.List.Perm.Subperm
import Mathlib.Order.Lattice

/-- A binary tree that ends in links back to its own nodes. -/
inductive BackTree (α : Type)
  | back (a : α)
  | node (a : α) (left right : BackTree α)

namespace BackTree

variable {α ι : Type}

def backs : BackTree α → List α
  | back a => [a]
  | node _ l r => l.backs ++ r.backs

def nodes : BackTree α → List α
  | back _ => []
  | node a l r => a :: (l.nodes ++ r.nodes)

/-- The nodes that a search passes when it turns right where `go` says so. -/
def path (go : α → Bool) : BackTree α → List α
  | back _ => []
  | node a l r => a :: if go a then r.path go else l.path go

/-- The link in which that search ends. -/
def closest (go : α → Bool) : BackTree α → α
  | back a => a
  | node a l r => if go a then r.closest go else l.closest go

/-- Every link back leads to a node that it lies below, or into `above`. -/
def BackTo : List α → BackTree α → Prop
  | above, back a => a ∈ above
  | above, node a l r => BackTo (a :: above) l ∧ BackTo (a :: above) r

theorem path_node (go : α → Bool) (a : α) (l r : BackTree α) :
    (node a l r).path go = a :: (if go a then r else l).path go := by
  rw [path]
  split <;> rfl

theorem closest_node (go : α → Bool) (a : α) (l r : BackTree α) :
    (node a l r).closest go = (if go a then r else l).closest go := by
  rw [closest]
  split <;> rfl

theorem path_mem_nodes {go : α → Bool} {t : BackTree α} : ∀ a ∈ t.path go, a ∈ t.nodes := by
  induction t with
  | back a => simp [path]
  | node a l r ihl ihr =>
    intro b hb
    rcases List.mem_cons.mp hb with rfl | hb
    · simp [nodes]
    · by_cases hgo : go a = true
      · rw [if_pos hgo] at hb
        simp [nodes, ihr b hb]
      · rw [if_neg hgo] at hb
        simp [nodes, ihl b hb]

theorem mem_nodes_of_path {go : α → Bool} {t : BackTree α} {pre post : List α} {p : α}
    (h : t.path go = pre ++ p :: post) : p ∈ t.nodes :=
  path_mem_nodes p (h ▸ List.mem_append_right pre List.mem_cons_self)

theorem closest_mem_backs (go : α → Bool) (t : BackTree α) : t.closest go ∈ t.backs := by
  induction t with
  | back a => simp [closest, backs]
  | node a l r ihl ihr =>
    rw [closest, backs, List.mem_append]
    split
    next => exact Or.inr ihr
    next => exact Or.inl ihl

theorem closest_congr {go go' : α → Bool} {t : BackTree α} (h : ∀ a ∈ t.nodes, go a = go' a) :
    t.closest go = t.closest go' := by
  induction t with
  | back a => rfl
  | node a l r ihl ihr =>
    rw [closest, closest, h a (by simp [nodes]), ihl fun b hb => h b (by simp [nodes, hb]),
      ihr fun b hb => h b (by simp [nodes, hb])]

theorem BackTo.mono {t : BackTree α} {above above' : List α} (h : BackTo above t)
    (hsub : ∀ a ∈ t.backs, a ∈ above → a ∈ above') : BackTo above' t := by
  induction t generalizing above above' with
  | back a => exact hsub a (by simp [backs]) h
  | node a l r ihl ihr =>
    refine ⟨ihl h.1 fun b hb hin => ?_, ihr h.2 fun b hb hin => ?_⟩
    · rcases List.mem_cons.mp hin with rfl | hin
      · exact List.mem_cons_self
      · exact List.mem_cons_of_mem a (hsub b (by simp [backs, hb]) hin)
    · rcases List.mem_cons.mp hin with rfl | hin
      · exact List.mem_cons_self
      · exact List.mem_cons_of_mem a (hsub b (by simp [backs, hb]) hin)

theorem BackTo.drop {t : BackTree α} {p : α} {above : List α} (h : BackTo (p :: above) t)
    (hp : p ∉ t.backs) : BackTo above t := by
  refine h.mono fun a ha hin => ?_
  rcases List.mem_cons.mp hin with rfl | hin
  · exact absurd ha hp
  · exact hin

/-- A link leads to a node of the tree or to one above it. -/
theorem BackTo.mem {t : BackTree α} {above : List α} (h : BackTo above t) :
    ∀ a ∈ t.backs, a ∈ t.nodes ∨ a ∈ above := by
  induction t generalizing above with
  | back a =>
    intro b hb
    obtain rfl := List.mem_singleton.mp hb
    exact Or.inr h
  | node a l r ihl ihr =>
    intro b hb
    rcases List.mem_append.mp hb with hb | hb
    · rcases ihl h.1 b hb with hin | hin
      · exact Or.inl (by simp [nodes, hin])
      · rcases List.mem_cons.mp hin with rfl | hin
        · exact Or.inl (by simp [nodes])
        · exact Or.inr hin
    · rcases ihr h.2 b hb with hin | hin
      · exact Or.inl (by simp [nodes, hin])
      · rcases List.mem_cons.mp hin with rfl | hin
        · exact Or.inl (by simp [nodes])
        · exact Or.inr hin

section Order

variable [LinearOrder ι]

/-- Two keys agree strictly between `base` and `d`. -/
def Agree (base d : ι) (f g : ι → Bool) : Prop :=
  ∀ i, base < i → i < d → f i = g i

variable (pos : α → ι) (bit : α → ι → Bool) (base : ι)

/-- The node `a` splits the keys below it at the first position behind `base` where they differ. -/
structure Splits (lo : ι) (a : α) (l r : BackTree α) : Prop where
  below : lo < pos a
  left : ∀ x ∈ l.backs, bit x (pos a) = false
  right : ∀ x ∈ r.backs, bit x (pos a) = true
  agree : ∀ x ∈ l.backs ++ r.backs, ∀ y ∈ l.backs ++ r.backs, Agree base (pos a) (bit x) (bit y)

def Sorted : ι → BackTree α → Prop
  | _, back _ => True
  | lo, node a l r => Splits pos bit base lo a l r ∧ Sorted (pos a) l ∧ Sorted (pos a) r

/-- Down the tree the positions rise, and a link back leads no further down. -/
def Rises : ι → BackTree α → Prop
  | lo, back a => pos a ≤ lo
  | lo, node a l r => lo < pos a ∧ Rises (pos a) l ∧ Rises (pos a) r

variable {pos bit base}

theorem Sorted.lt_pos {lo : ι} {t : BackTree α} (h : Sorted pos bit base lo t) :
    ∀ a ∈ t.nodes, lo < pos a := by
  induction t generalizing lo with
  | back a => simp [nodes]
  | node a l r ihl ihr =>
    obtain ⟨hsplit, hl, hr⟩ := h
    intro b hb
    rw [nodes, List.mem_cons, List.mem_append] at hb
    rcases hb with rfl | hb | hb
    · exact hsplit.below
    · exact hsplit.below.trans (ihl hl b hb)
    · exact hsplit.below.trans (ihr hr b hb)

theorem Sorted.rises {lo : ι} {t : BackTree α} {above : List α} (h : Sorted pos bit base lo t)
    (hback : BackTo above t) (habove : ∀ a ∈ above, pos a ≤ lo) : Rises pos lo t := by
  induction t generalizing lo above with
  | back a => exact habove a hback
  | node a l r ihl ihr =>
    obtain ⟨hsplit, hl, hr⟩ := h
    have habove' : ∀ b ∈ a :: above, pos b ≤ pos a := by
      intro b hb
      rcases List.mem_cons.mp hb with rfl | hb
      · exact le_refl _
      · exact (habove b hb).trans hsplit.below.le
    exact ⟨hsplit.below, ihl hl hback.1 habove', ihr hr hback.2 habove'⟩

theorem Sorted.congr {pos' : α → ι} {bit' : α → ι → Bool} {lo : ι} {t : BackTree α}
    (h : Sorted pos bit base lo t) (hpos : ∀ a ∈ t.nodes, pos' a = pos a)
    (hbit : ∀ x ∈ t.backs, bit' x = bit x) : Sorted pos' bit' base lo t := by
  induction t generalizing lo with
  | back a => trivial
  | node a l r ihl ihr =>
    obtain ⟨hsplit, hl, hr⟩ := h
    have ha : pos' a = pos a := hpos a (by simp [nodes])
    have hbl : ∀ x ∈ l.backs, bit' x = bit x := fun x hx => hbit x (by simp [backs, hx])
    have hbr : ∀ x ∈ r.backs, bit' x = bit x := fun x hx => hbit x (by simp [backs, hx])
    refine ⟨⟨?_, ?_, ?_, ?_⟩, ?_, ?_⟩
    · rw [ha]
      exact hsplit.below
    · intro x hx
      rw [ha, hbl x hx]
      exact hsplit.left x hx
    · intro x hx
      rw [ha, hbr x hx]
      exact hsplit.right x hx
    · intro x hx y hy
      rw [ha, hbit x hx, hbit y hy]
      exact hsplit.agree x hx y hy
    · rw [ha]
      exact ihl hl (fun b hb => hpos b (by simp [nodes, hb])) hbl
    · rw [ha]
      exact ihr hr (fun b hb => hpos b (by simp [nodes, hb])) hbr

/-- The search for a stored key ends in its link. -/
theorem Sorted.closest_eq {lo : ι} {t : BackTree α} (h : Sorted pos bit base lo t) {x : α}
    (hx : x ∈ t.backs) {f : ι → Bool} (hf : ∀ a ∈ t.nodes, f (pos a) = bit x (pos a)) :
    t.closest (fun a => f (pos a)) = x := by
  induction t generalizing lo with
  | back a => exact (List.mem_singleton.mp hx).symm
  | node a l r ihl ihr =>
    obtain ⟨hsplit, hl, hr⟩ := h
    have ha := hf a (by simp [nodes])
    rw [closest, ha]
    rcases List.mem_append.mp hx with hin | hin
    · rw [hsplit.left x hin, if_neg Bool.false_ne_true]
      exact ihl hl hin fun b hb => hf b (by simp [nodes, hb])
    · rw [hsplit.right x hin, if_pos rfl]
      exact ihr hr hin fun b hb => hf b (by simp [nodes, hb])

/-- No stored key agrees longer with the one searched for than the key found. -/
theorem Sorted.closest_agree {lo : ι} {t : BackTree α} (h : Sorted pos bit base lo t)
    (hbase : base ≤ lo) {f : ι → Bool} {d : ι} {y : α} (hy : y ∈ t.backs)
    (hagree : Agree base d f (bit y)) : Agree base d f (bit (t.closest fun a => f (pos a))) := by
  induction t generalizing lo with
  | back a =>
    obtain rfl := List.mem_singleton.mp hy
    exact hagree
  | node a l r ihl ihr =>
    obtain ⟨hsplit, hl, hr⟩ := h
    have hbase' : base < pos a := hbase.trans_lt hsplit.below
    -- a key on the other side differs at this node, so all keys below it agree up to there
    have other : bit y (pos a) ≠ f (pos a) →
        Agree base d f (bit ((node a l r).closest fun b => f (pos b))) := by
      intro hne i hi hid
      have hd : d ≤ pos a := by
        by_contra hlt
        exact hne (hagree (pos a) hbase' (not_le.mp hlt)).symm
      rw [hagree i hi hid]
      exact hsplit.agree y hy _ (closest_mem_backs _ (node a l r)) i hi (hid.trans_le hd)
    rcases List.mem_append.mp hy with hin | hin
    · by_cases hgo : f (pos a) = true
      · refine other ?_
        rw [hsplit.left y hin, hgo]
        exact Bool.false_ne_true
      · rw [closest, if_neg hgo]
        exact ihl hl hbase'.le hin
    · by_cases hgo : f (pos a) = true
      · rw [closest, if_pos hgo]
        exact ihr hr hbase'.le hin
      · refine other ?_
        rw [hsplit.right y hin]
        exact fun heq => hgo heq.symm

theorem Sorted.nodup_backs {lo : ι} {t : BackTree α} (h : Sorted pos bit base lo t) :
    t.backs.Nodup := by
  induction t generalizing lo with
  | back a => simp [backs]
  | node a l r ihl ihr =>
    obtain ⟨hsplit, hl, hr⟩ := h
    refine List.nodup_append.mpr ⟨ihl hl, ihr hr, fun x hx y hy heq => ?_⟩
    have hfalse := hsplit.left x hx
    rw [heq, hsplit.right y hy] at hfalse
    cases hfalse

end Order

section Insert

variable [LinearOrder ι]

/-- The new node `n` over the tree `t`, with its link on the given side. -/
def join (n : α) (side : Bool) (t : BackTree α) : BackTree α :=
  if side then node n t (back n) else node n (back n) t

/-- Insertion at the position of `n`, on the way that a search for its key takes. -/
def insert (pos : α → ι) (bit : α → ι → Bool) (n : α) : BackTree α → BackTree α
  | back a => join n (bit n (pos n)) (back a)
  | node a l r =>
    if pos n ≤ pos a then join n (bit n (pos n)) (node a l r)
    else if bit n (pos a) then node a l (r.insert pos bit n)
    else node a (l.insert pos bit n) r

variable {pos : α → ι} {bit : α → ι → Bool} {base : ι} {n : α}

theorem backs_join (side : Bool) (t : BackTree α) : (join n side t).backs.Perm (n :: t.backs) := by
  cases side with
  | false => exact List.Perm.refl _
  | true => exact List.perm_append_singleton n t.backs

theorem nodes_join (side : Bool) (t : BackTree α) : (join n side t).nodes = n :: t.nodes := by
  cases side with
  | false => simp [join, nodes]
  | true => simp [join, nodes]

theorem BackTo.join {side : Bool} {t : BackTree α} {above : List α} (h : BackTo above t) :
    BackTo above (join n side t) := by
  have ht : BackTo (n :: above) t := h.mono fun _ _ hin => List.mem_cons_of_mem n hin
  cases side with
  | false => exact ⟨List.mem_cons_self, ht⟩
  | true => exact ⟨ht, List.mem_cons_self⟩

theorem backs_insert (t : BackTree α) : (t.insert pos bit n).backs.Perm (n :: t.backs) := by
  induction t with
  | back a => exact backs_join _ _
  | node a l r ihl ihr =>
    rw [insert]
    split
    next => exact backs_join _ _
    next =>
      split
      next => exact (ihr.append_left l.backs).trans List.perm_middle
      next => exact ihl.append_right r.backs

theorem nodes_insert (t : BackTree α) : (t.insert pos bit n).nodes.Perm (n :: t.nodes) := by
  induction t with
  | back a => rw [insert, nodes_join]
  | node a l r ihl ihr =>
    rw [insert]
    split
    next => rw [nodes_join]
    next =>
      split
      next =>
        refine (((ihr.append_left l.nodes).trans List.perm_middle).cons a).trans ?_
        exact List.Perm.swap n a _
      next => exact ((ihl.append_right r.nodes).cons a).trans (List.Perm.swap n a _)

theorem BackTo.insert {t : BackTree α} {above : List α} (h : BackTo above t) :
    BackTo above (t.insert pos bit n) := by
  induction t generalizing above with
  | back a => exact h.join
  | node a l r ihl ihr =>
    rw [BackTree.insert]
    split
    next => exact h.join
    next =>
      split
      next => exact ⟨h.1, ihr h.2⟩
      next => exact ⟨ihl h.1, h.2⟩

theorem Sorted.join {lo : ι} {t : BackTree α} (h : Sorted pos bit base (pos n) t)
    (hlo : lo < pos n) (hagree : ∀ x ∈ t.backs, Agree base (pos n) (bit n) (bit x))
    (hdiffer : ∀ x ∈ t.backs, bit x (pos n) = !bit n (pos n)) :
    Sorted pos bit base lo (join n (bit n (pos n)) t) := by
  have hall : ∀ x ∈ n :: t.backs, ∀ y ∈ n :: t.backs, Agree base (pos n) (bit x) (bit y) := by
    have hn : ∀ x ∈ n :: t.backs, Agree base (pos n) (bit n) (bit x) := by
      intro x hx
      rcases List.mem_cons.mp hx with rfl | hx
      · exact fun _ _ _ => rfl
      · exact hagree x hx
    exact fun x hx y hy i hi hid => (hn x hx i hi hid).symm.trans (hn y hy i hi hid)
  cases hside : bit n (pos n) with
  | false =>
    refine ⟨⟨hlo, ?_, ?_, hall⟩, trivial, h⟩
    · intro x hx
      rw [List.mem_singleton.mp hx, hside]
    · intro x hx
      rw [hdiffer x hx, hside, Bool.not_false]
  | true =>
    refine ⟨⟨hlo, ?_, ?_, fun x hx y hy => ?_⟩, h, trivial⟩
    · intro x hx
      rw [hdiffer x hx, hside, Bool.not_true]
    · intro x hx
      rw [List.mem_singleton.mp hx, hside]
    · have hperm := List.perm_append_singleton n t.backs
      exact hall x (hperm.mem_iff.mp hx) y (hperm.mem_iff.mp hy)

/-- Insertion at the first position where the new key differs from the closest one. -/
theorem Sorted.insert {lo : ι} {t : BackTree α} (h : Sorted pos bit base lo t) (hbase : base ≤ lo)
    (hlo : lo < pos n)
    (hagree : Agree base (pos n) (bit n) (bit (t.closest fun a => bit n (pos a))))
    (hdiffer : bit (t.closest fun a => bit n (pos a)) (pos n) = !bit n (pos n)) :
    Sorted pos bit base lo (t.insert pos bit n) := by
  induction t generalizing lo with
  | back a =>
    refine Sorted.join trivial hlo (fun x hx => ?_) fun x hx => ?_
    · rw [List.mem_singleton.mp hx]
      exact hagree
    · rw [List.mem_singleton.mp hx]
      exact hdiffer
  | node a l r ihl ihr =>
    obtain ⟨hsplit, hl, hr⟩ := h
    have hbase' : base < pos a := hbase.trans_lt hsplit.below
    have hmem := closest_mem_backs (fun a => bit n (pos a)) (node a l r)
    rw [BackTree.insert]
    split
    next hle =>
      -- the search turned at this node as the closest key does, so the two differ above it
      have hne : pos n ≠ pos a := by
        intro heq
        rw [heq] at hdiffer
        rw [closest] at hdiffer
        by_cases hgo : bit n (pos a) = true
        · rw [if_pos hgo, hsplit.right _ (closest_mem_backs _ r), hgo] at hdiffer
          cases hdiffer
        · rw [if_neg hgo, hsplit.left _ (closest_mem_backs _ l)] at hdiffer
          rw [Bool.not_eq_true] at hgo
          rw [hgo] at hdiffer
          cases hdiffer
      have hlt : pos n < pos a := lt_of_le_of_ne hle hne
      have hsub : Sorted pos bit base (pos n) (node a l r) :=
        ⟨⟨hlt, hsplit.left, hsplit.right, hsplit.agree⟩, hl, hr⟩
      refine hsub.join hlo (fun x hx i hi hid => ?_) fun x hx => ?_
      · rw [hagree i hi hid]
        exact hsplit.agree _ hmem x hx i hi (hid.trans hlt)
      · rw [← hdiffer]
        exact hsplit.agree x hx _ hmem (pos n) (hbase.trans_lt hlo) hlt
    next hlt =>
      rw [not_le] at hlt
      have hin : ∀ x ∈ n :: (l.backs ++ r.backs), Agree base (pos a) (bit n) (bit x) := by
        intro x hx i hi hid
        rcases List.mem_cons.mp hx with rfl | hx
        · rfl
        · rw [hagree i hi (hid.trans hlt)]
          exact hsplit.agree _ hmem x hx i hi hid
      have hall : ∀ x ∈ n :: (l.backs ++ r.backs), ∀ y ∈ n :: (l.backs ++ r.backs),
          Agree base (pos a) (bit x) (bit y) :=
        fun x hx y hy i hi hid => (hin x hx i hi hid).symm.trans (hin y hy i hi hid)
      rw [closest] at hagree hdiffer
      by_cases hgo : bit n (pos a) = true
      · rw [if_pos hgo] at hagree hdiffer ⊢
        have hperm : (r.insert pos bit n).backs.Perm (n :: r.backs) := backs_insert r
        have hboth := (hperm.append_left l.backs).trans List.perm_middle
        refine ⟨⟨hsplit.below, hsplit.left, fun x hx => ?_, fun x hx y hy => ?_⟩, hl,
          ihr hr hbase'.le hlt hagree hdiffer⟩
        · rcases List.mem_cons.mp (hperm.mem_iff.mp hx) with rfl | hx
          · exact hgo
          · exact hsplit.right x hx
        · exact hall x (hboth.mem_iff.mp hx) y (hboth.mem_iff.mp hy)
      · rw [if_neg hgo] at hagree hdiffer ⊢
        have hperm : (l.insert pos bit n).backs.Perm (n :: l.backs) := backs_insert l
        have hboth := hperm.append_right r.backs
        refine ⟨⟨hsplit.below, fun x hx => ?_, hsplit.right, fun x hx y hy => ?_⟩,
          ihl hl hbase'.le hlt hagree hdiffer, hr⟩
        · rcases List.mem_cons.mp (hperm.mem_iff.mp hx) with rfl | hx
          · rwa [Bool.not_eq_true] at hgo
          · exact hsplit.left x hx
        · exact hall x (hboth.mem_iff.mp hx) y (hboth.mem_iff.mp hy)

end Insert

section Remove

variable {go go' : α → Bool} {p x : α}

/-- The link in which the search ends, led to `b` instead. -/
def relink (go : α → Bool) (b : α) : BackTree α → BackTree α
  | back _ => back b
  | node a l r => if go a then node a l (r.relink go b) else node a (l.relink go b) r

/-- In the first tree the search ends in a link from `p` to `x`; the second one is without this
link and this node. -/
inductive Cuts (go : α → Bool) (p x : α) : BackTree α → BackTree α → Prop
  | right {l : BackTree α} (h : go p = true) : Cuts go p x (node p l (back x)) l
  | left {r : BackTree α} (h : go p = false) : Cuts go p x (node p (back x) r) r
  | inRight {a : α} {l r r' : BackTree α} (h : go a = true) (hr : Cuts go p x r r') :
    Cuts go p x (node a l r) (node a l r')
  | inLeft {a : α} {l l' r : BackTree α} (h : go a = false) (hl : Cuts go p x l l') :
    Cuts go p x (node a l r) (node a l' r)

theorem back_or_cuts (go : α → Bool) (t : BackTree α) :
    (∃ y, t = back y) ∨ ∃ p x t', Cuts go p x t t' := by
  induction t with
  | back a => exact Or.inl ⟨a, rfl⟩
  | node a l r ihl ihr =>
    right
    cases hgo : go a with
    | false =>
      rcases ihl with ⟨y, rfl⟩ | ⟨p, x, l', hl⟩
      · exact ⟨a, y, r, .left hgo⟩
      · exact ⟨p, x, node a l' r, .inLeft hgo hl⟩
    | true =>
      rcases ihr with ⟨y, rfl⟩ | ⟨p, x, r', hr⟩
      · exact ⟨a, y, l, .right hgo⟩
      · exact ⟨p, x, node a l r', .inRight hgo hr⟩

section

variable {t t' : BackTree α}

theorem Cuts.closest (h : Cuts go p x t t') : t.closest go = x := by
  induction h with
  | right h => rw [BackTree.closest, if_pos h, BackTree.closest]
  | left h => simp [BackTree.closest, h]
  | inRight h _ ih => rw [BackTree.closest, if_pos h, ih]
  | inLeft h _ ih => simpa [BackTree.closest, h] using ih

theorem Cuts.path (h : Cuts go p x t t') : ∃ pre, t.path go = pre ++ [p] := by
  induction h with
  | right h => exact ⟨[], by simp [BackTree.path, h]⟩
  | left h => exact ⟨[], by simp [BackTree.path, h]⟩
  | @inRight a l r r' h _ ih =>
    obtain ⟨pre, hpre⟩ := ih
    exact ⟨a :: pre, by simp [BackTree.path, h, hpre]⟩
  | @inLeft a l l' r h _ ih =>
    obtain ⟨pre, hpre⟩ := ih
    exact ⟨a :: pre, by simp [BackTree.path, h, hpre]⟩

theorem Cuts.nodes (h : Cuts go p x t t') : (p :: t'.nodes).Perm t.nodes := by
  induction h with
  | right => simp [BackTree.nodes]
  | left => simp [BackTree.nodes]
  | @inRight a l r r' _ _ ih =>
    refine (List.Perm.swap a p _).trans (List.Perm.cons a ?_)
    exact List.perm_middle.symm.trans (ih.append_left l.nodes)
  | @inLeft a l l' r _ _ ih =>
    exact (List.Perm.swap a p _).trans ((ih.append_right r.nodes).cons a)

theorem Cuts.backs (h : Cuts go p x t t') : (x :: t'.backs).Perm t.backs := by
  induction h with
  | @right l => exact (List.perm_append_singleton x l.backs).symm
  | left => exact List.Perm.refl _
  | @inRight a l r r' _ _ ih => exact List.perm_middle.symm.trans (ih.append_left l.backs)
  | @inLeft a l l' r _ _ ih => exact ih.append_right r.backs

theorem Cuts.backTo (h : Cuts go p x t t') {above : List α} (hback : BackTo above t)
    (hp : p ∉ t'.backs) : BackTo above t' := by
  induction h generalizing above with
  | right => exact hback.1.drop hp
  | left => exact hback.2.drop hp
  | inRight _ _ ih => exact ⟨hback.1, ih hback.2 fun hin => hp (List.mem_append_right _ hin)⟩
  | inLeft _ _ ih => exact ⟨ih hback.1 fun hin => hp (List.mem_append_left _ hin), hback.2⟩

end

section

variable {b : α} {t t' : BackTree α}

theorem relink_closest (go : α → Bool) (t : BackTree α) : t.relink go (t.closest go) = t := by
  induction t with
  | back a => rfl
  | node a l r ihl ihr =>
    cases h : go a with
    | false => simpa [relink, closest, h] using ihl
    | true => simpa [relink, closest, h] using ihr

theorem nodes_relink (go : α → Bool) (b : α) (t : BackTree α) :
    (t.relink go b).nodes = t.nodes := by
  induction t with
  | back a => rfl
  | node a l r ihl ihr =>
    rw [relink]
    split
    next => rw [nodes, nodes, ihr]
    next => rw [nodes, nodes, ihl]

theorem backs_relink (go : α → Bool) (b : α) (t : BackTree α) :
    (t.closest go :: (t.relink go b).backs).Perm (b :: t.backs) := by
  induction t with
  | back a => exact List.Perm.swap b a []
  | node a l r ihl ihr =>
    cases h : go a with
    | false => simpa [relink, closest, backs, h] using ihl.append_right r.backs
    | true =>
      simp only [relink, closest, backs, h, if_true]
      exact (List.perm_middle.symm.trans (ihr.append_left l.backs)).trans List.perm_middle

theorem mem_backs_relink {y : α} (hy : y ∈ (t.relink go b).backs) : y = b ∨ y ∈ t.backs :=
  List.mem_cons.mp ((backs_relink go b t).mem_iff.mp (List.mem_cons_of_mem _ hy))

theorem path_relink (go go' : α → Bool) (b : α) (t : BackTree α) :
    (t.relink go b).path go' = t.path go' := by
  induction t with
  | back a => rfl
  | node a l r ihl ihr =>
    rw [relink]
    split
    next => rw [path, path, ihr]
    next => rw [path, path, ihl]

theorem BackTo.closest_mem {above : List α} (h : BackTo above t) :
    t.closest go ∈ t.path go ∨ t.closest go ∈ above := by
  induction t generalizing above with
  | back a => exact Or.inr h
  | node a l r ihl ihr =>
    rw [closest, path]
    split
    next =>
      rcases ihr h.2 with hin | hin
      · exact Or.inl (List.mem_cons_of_mem a hin)
      · rcases List.mem_cons.mp hin with heq | hin
        · exact Or.inl (heq ▸ List.mem_cons_self)
        · exact Or.inr hin
    next =>
      rcases ihl h.1 with hin | hin
      · exact Or.inl (List.mem_cons_of_mem a hin)
      · rcases List.mem_cons.mp hin with heq | hin
        · exact Or.inl (heq ▸ List.mem_cons_self)
        · exact Or.inr hin

theorem BackTo.relink {above : List α} (h : BackTo above t) (hb : b ∈ t.path go ∨ b ∈ above) :
    BackTo above (t.relink go b) := by
  induction t generalizing above with
  | back a => simpa [path, BackTree.relink, BackTo] using hb
  | node a l r ihl ihr =>
    have hb' : ∀ u : BackTree α, b ∈ a :: u.path go ∨ b ∈ above →
        b ∈ u.path go ∨ b ∈ a :: above := by
      intro u hu
      rcases hu with hu | hu
      · rcases List.mem_cons.mp hu with rfl | hu
        · exact Or.inr List.mem_cons_self
        · exact Or.inl hu
      · exact Or.inr (List.mem_cons_of_mem a hu)
    rw [path] at hb
    rw [BackTree.relink]
    by_cases hgo : go a = true
    · rw [if_pos hgo] at hb ⊢
      exact ⟨h.1, ihr h.2 (hb' r hb)⟩
    · rw [if_neg hgo] at hb ⊢
      exact ⟨ihl h.1 (hb' l hb), h.2⟩

/-- Two searches that pass the same node came the same way. -/
theorem path_shared (hnodup : t.nodes.Nodup) {pre post : List α}
    (h : t.path go = pre ++ p :: post) (hp : p ∈ t.path go') :
    ∃ post', t.path go' = pre ++ p :: post' := by
  induction t generalizing pre with
  | back a => simp [path] at hp
  | node a l r ihl ihr =>
    rw [nodes, List.nodup_cons, List.nodup_append] at hnodup
    obtain ⟨ha, hl, hr, hdisj⟩ := hnodup
    rw [List.mem_append, not_or] at ha
    rw [path] at h hp ⊢
    cases pre with
    | nil =>
      rw [List.nil_append, List.cons.injEq] at h
      exact ⟨_, by rw [h.1, List.nil_append]⟩
    | cons c pre =>
      rw [List.cons_append, List.cons.injEq] at h
      obtain ⟨rfl, h⟩ := h
      have hin : p ∈ if go a then r.path go else l.path go := by
        rw [h]
        simp
      have hne : p ≠ a := by
        rintro rfl
        split at hin
        next => exact ha.2 (path_mem_nodes p hin)
        next => exact ha.1 (path_mem_nodes p hin)
      replace hp := List.mem_of_ne_of_mem hne hp
      by_cases hgo : go a = true
      · rw [if_pos hgo] at h hin
        by_cases hgo' : go' a = true
        · rw [if_pos hgo'] at hp ⊢
          obtain ⟨post', hpost⟩ := ihr hr h hp
          exact ⟨post', by rw [hpost, List.cons_append]⟩
        · rw [if_neg hgo'] at hp
          exact absurd rfl (hdisj p (path_mem_nodes p hp) p (path_mem_nodes p hin))
      · rw [if_neg hgo] at h hin
        by_cases hgo' : go' a = true
        · rw [if_pos hgo'] at hp
          exact absurd rfl (hdisj p (path_mem_nodes p hin) p (path_mem_nodes p hp))
        · rw [if_neg hgo'] at hp ⊢
          obtain ⟨post', hpost⟩ := ihl hl h hp
          exact ⟨post', by rw [hpost, List.cons_append]⟩

theorem Cuts.closest_other (h : Cuts go p x t t') (hne : t.closest go' ≠ x) :
    t'.closest go' = t.closest go' := by
  induction h with
  | @right l h =>
    cases hgo' : go' p with
    | false => simp [BackTree.closest, hgo']
    | true => simp [BackTree.closest, hgo'] at hne
  | @left r h =>
    cases hgo' : go' p with
    | false => simp [BackTree.closest, hgo'] at hne
    | true => simp [BackTree.closest, hgo']
  | @inRight a l r r' h hr ih =>
    cases hgo' : go' a with
    | false => simp [BackTree.closest, hgo']
    | true => simpa [BackTree.closest, hgo'] using ih (by simpa [BackTree.closest, hgo'] using hne)
  | @inLeft a l l' r h hl ih =>
    cases hgo' : go' a with
    | false => simpa [BackTree.closest, hgo'] using ih (by simpa [BackTree.closest, hgo'] using hne)
    | true => simp [BackTree.closest, hgo']

/-- Leading another link elsewhere does not change what is cut. -/
theorem Cuts.relink (h : Cuts go p x t t') (hne : t.closest go' ≠ x) :
    Cuts go p x (t.relink go' b) (t'.relink go' b) := by
  induction h with
  | @right l h =>
    cases hgo' : go' p with
    | false => simpa [BackTree.relink, hgo'] using Cuts.right h
    | true => simp [BackTree.closest, hgo'] at hne
  | @left r h =>
    cases hgo' : go' p with
    | false => simp [BackTree.closest, hgo'] at hne
    | true => simpa [BackTree.relink, hgo'] using Cuts.left h
  | @inRight a l r r' h hr ih =>
    cases hgo' : go' a with
    | false => simpa [BackTree.relink, hgo'] using Cuts.inRight h hr
    | true =>
      have hstep := ih (by simpa [BackTree.closest, hgo'] using hne)
      simpa [BackTree.relink, hgo'] using Cuts.inRight h hstep
  | @inLeft a l l' r h hl ih =>
    cases hgo' : go' a with
    | false =>
      have hstep := ih (by simpa [BackTree.closest, hgo'] using hne)
      simpa [BackTree.relink, hgo'] using Cuts.inLeft h hstep
    | true => simpa [BackTree.relink, hgo'] using Cuts.inLeft h hl

end

section

variable [LinearOrder ι] {pos : α → ι} {bit bit' : α → ι → Bool} {base lo : ι}
  {t t' : BackTree α}

theorem Sorted.mono {lo' : ι} (h : Sorted pos bit base lo t) (hle : lo' ≤ lo) :
    Sorted pos bit base lo' t := by
  cases t with
  | back a => trivial
  | node a l r =>
    obtain ⟨hsplit, hl, hr⟩ := h
    exact ⟨⟨hle.trans_lt hsplit.below, hsplit.left, hsplit.right, hsplit.agree⟩, hl, hr⟩

/-- A node still splits the keys below it when each of them is one of the old ones. -/
theorem Splits.sub {a : α} {l r l' r' : BackTree α} (h : Splits pos bit base lo a l r)
    (hl : ∀ y ∈ l'.backs, ∃ z ∈ l.backs, bit' y = bit z)
    (hr : ∀ y ∈ r'.backs, ∃ z ∈ r.backs, bit' y = bit z) : Splits pos bit' base lo a l' r' := by
  have hboth : ∀ y ∈ l'.backs ++ r'.backs, ∃ z ∈ l.backs ++ r.backs, bit' y = bit z := by
    intro y hy
    rcases List.mem_append.mp hy with hy | hy
    · obtain ⟨z, hz, heq⟩ := hl y hy
      exact ⟨z, List.mem_append_left _ hz, heq⟩
    · obtain ⟨z, hz, heq⟩ := hr y hy
      exact ⟨z, List.mem_append_right _ hz, heq⟩
  refine ⟨h.below, fun y hy => ?_, fun y hy => ?_, fun y hy y' hy' => ?_⟩
  · obtain ⟨z, hz, heq⟩ := hl y hy
    rw [heq]
    exact h.left z hz
  · obtain ⟨z, hz, heq⟩ := hr y hy
    rw [heq]
    exact h.right z hz
  · obtain ⟨z, hz, heq⟩ := hboth y hy
    obtain ⟨z', hz', heq'⟩ := hboth y' hy'
    rw [heq, heq']
    exact h.agree z hz z' hz'

theorem Cuts.sorted (h : Cuts go p x t t') (hsorted : Sorted pos bit base lo t) :
    Sorted pos bit base lo t' := by
  induction h generalizing lo with
  | right => exact hsorted.2.1.mono hsorted.1.below.le
  | left => exact hsorted.2.2.mono hsorted.1.below.le
  | @inRight a l r r' _ hr ih =>
    obtain ⟨hsplit, hl, hr'⟩ := hsorted
    refine ⟨hsplit.sub (fun y hy => ⟨y, hy, rfl⟩) fun y hy => ⟨y, ?_, rfl⟩, hl, ih hr'⟩
    exact hr.backs.mem_iff.mp (List.mem_cons_of_mem x hy)
  | @inLeft a l l' r _ hl ih =>
    obtain ⟨hsplit, hl', hr⟩ := hsorted
    refine ⟨hsplit.sub (fun y hy => ⟨y, ?_, rfl⟩) fun y hy => ⟨y, hy, rfl⟩, ih hl', hr⟩
    exact hl.backs.mem_iff.mp (List.mem_cons_of_mem x hy)

/-- A link may lead to another node that has the key. -/
theorem Sorted.relink {b : α} (h : Sorted pos bit base lo t) (hkeep : ∀ y ∈ t.backs, bit' y = bit y)
    (hb : bit' b = bit (t.closest go)) : Sorted pos bit' base lo (t.relink go b) := by
  induction t generalizing lo with
  | back a => trivial
  | node a l r ihl ihr =>
    obtain ⟨hsplit, hl, hr⟩ := h
    have hkl : ∀ y ∈ l.backs, bit' y = bit y := fun y hy => hkeep y (by simp [backs, hy])
    have hkr : ∀ y ∈ r.backs, bit' y = bit y := fun y hy => hkeep y (by simp [backs, hy])
    rw [closest] at hb
    rw [BackTree.relink]
    by_cases hgo : go a = true
    · rw [if_pos hgo] at hb ⊢
      refine ⟨hsplit.sub (fun y hy => ⟨y, hy, hkl y hy⟩) fun y hy => ?_,
        hl.congr (fun _ _ => rfl) hkl, ihr hr hkr hb⟩
      rcases mem_backs_relink hy with rfl | hy
      · exact ⟨_, closest_mem_backs go r, hb⟩
      · exact ⟨y, hy, hkr y hy⟩
    · rw [if_neg hgo] at hb ⊢
      refine ⟨hsplit.sub (fun y hy => ?_) fun y hy => ⟨y, hy, hkr y hy⟩, ihl hl hkl hb,
        hr.congr (fun _ _ => rfl) hkr⟩
      rcases mem_backs_relink hy with rfl | hy
      · exact ⟨_, closest_mem_backs go l, hb⟩
      · exact ⟨y, hy, hkl y hy⟩

/-- What remains behind a cut of the node `p` when the link to `p` is led to `x`, which takes over
its key. -/
theorem Cuts.exists_moved [DecidableEq α] (h : Cuts go p x t t') (hp : t.closest go' = p)
    (hsorted : Sorted pos bit base lo t) : ∃ u, Cuts go p x (t.relink go' x) u ∧
      (p :: u.nodes).Perm t.nodes ∧ (p :: u.backs).Perm t.backs ∧
      (∀ above, BackTo above t → x ∈ t.path go' ∨ x ∈ above → BackTo above u) ∧
      ∀ bit' : α → ι → Bool, (∀ a, a ≠ p → a ≠ x → bit' a = bit a) → (x ≠ p → bit' x = bit p) →
        Sorted pos bit' base lo u := by
  have rest : ∀ u, Cuts go p x (t.relink go' x) u → (p :: u.nodes).Perm t.nodes ∧
      (p :: u.backs).Perm t.backs ∧
      ∀ above, BackTo above t → x ∈ t.path go' ∨ x ∈ above → BackTo above u := by
    intro u hu
    have hbacks : (p :: u.backs).Perm t.backs := by
      have hrelink := backs_relink go' x t
      rw [hp] at hrelink
      exact ((List.Perm.swap p x _).trans ((hu.backs.cons p).trans hrelink)).cons_inv
    refine ⟨?_, hbacks, fun above hback hx => hu.backTo (hback.relink hx) ?_⟩
    · have hnodes := hu.nodes
      rwa [nodes_relink] at hnodes
    · exact (List.nodup_cons.mp (hbacks.nodup_iff.mpr hsorted.nodup_backs)).1
  by_cases hpx : p = x
  · have hsame : t.relink go' x = t := by
      rw [← hpx, ← hp]
      exact relink_closest go' t
    have hu : Cuts go p x (t.relink go' x) t' := hsame.symm ▸ h
    obtain ⟨hnodes, hbacks, hback⟩ := rest t' hu
    refine ⟨t', hu, hnodes, hbacks, hback, fun bit' hothers _ => ?_⟩
    have hnot := (List.nodup_cons.mp (hbacks.nodup_iff.mpr hsorted.nodup_backs)).1
    refine (h.sorted hsorted).congr (fun _ _ => rfl) fun a ha => ?_
    exact hothers a (fun heq => hnot (heq ▸ ha)) fun heq => hnot (hpx.trans heq.symm ▸ ha)
  · have hu : Cuts go p x (t.relink go' x) (t'.relink go' x) := h.relink (by rwa [hp])
    obtain ⟨hnodes, hbacks, hback⟩ := rest _ hu
    refine ⟨_, hu, hnodes, hbacks, hback, fun bit' hothers htaken => ?_⟩
    have hnot := (List.nodup_cons.mp (hbacks.nodup_iff.mpr hsorted.nodup_backs)).1
    have hx : x ∉ t'.backs := (List.nodup_cons.mp (h.backs.nodup_iff.mpr hsorted.nodup_backs)).1
    have hmoved : Sorted pos (Function.update bit x (bit p)) base lo (t'.relink go' x) := by
      refine (h.sorted hsorted).relink (fun a ha => ?_) ?_
      · exact Function.update_of_ne (fun heq : a = x => hx (heq ▸ ha)) ..
      · rw [Function.update_self, h.closest_other (by rwa [hp]), hp]
    refine hmoved.congr (fun _ _ => rfl) fun a ha => ?_
    by_cases hax : a = x
    · rw [hax, Function.update_self]
      exact htaken (Ne.symm hpx)
    · rw [Function.update_of_ne hax]
      exact hothers a (fun heq => hnot (heq ▸ ha)) hax

end

end Remove

section Own

variable {x y : α} {t : BackTree α}

theorem length_backs (t : BackTree α) : t.backs.length = t.nodes.length + 1 := by
  induction t with
  | back a => rfl
  | node a l r ihl ihr =>
    rw [backs, nodes, List.length_append, List.length_cons, List.length_append, ihl, ihr]
    omega

/-- In every part of the tree, each node has its own link back. -/
def Owns : BackTree α → Prop
  | back _ => True
  | node a l r => (∀ b ∈ (node a l r).nodes, b ∈ (node a l r).backs) ∧ Owns l ∧ Owns r

theorem Owns.mem_backs (h : Owns t) : ∀ a ∈ t.nodes, a ∈ t.backs := by
  cases t with
  | back a => simp [nodes]
  | node a l r => exact h.1

/-- Links lead up, so a node whose link is somewhere in the tree has it below itself. -/
theorem owns_of_backTo {above : List α} (hback : BackTo above t) (hnodup : t.nodes.Nodup)
    (habove : ∀ a ∈ t.nodes, a ∉ above) (hall : ∀ a ∈ t.nodes, a ∈ t.backs) : Owns t := by
  induction t generalizing above with
  | back a => trivial
  | node a l r ihl ihr =>
    rw [nodes, List.nodup_cons, List.nodup_append] at hnodup
    obtain ⟨ha, hl, hr, hdisj⟩ := hnodup
    rw [List.mem_append, not_or] at ha
    have hin : ∀ b ∈ l.nodes ++ r.nodes, b ∈ (node a l r).nodes ∧ b ∉ a :: above := by
      intro b hb
      refine ⟨List.mem_cons_of_mem a hb, fun hmem => ?_⟩
      rcases List.mem_cons.mp hmem with rfl | hmem
      · rcases List.mem_append.mp hb with hb | hb
        · exact ha.1 hb
        · exact ha.2 hb
      · exact habove b (List.mem_cons_of_mem a hb) hmem
    refine ⟨hall, ihl hback.1 hl (fun b hb => (hin b (List.mem_append_left _ hb)).2) ?_,
      ihr hback.2 hr (fun b hb => (hin b (List.mem_append_right _ hb)).2) ?_⟩
    · intro b hb
      obtain ⟨hbn, hba⟩ := hin b (List.mem_append_left _ hb)
      rcases List.mem_append.mp (hall b hbn) with hbl | hbr
      · exact hbl
      · rcases hback.2.mem b hbr with hbr | hbr
        · exact absurd rfl (hdisj b hb b hbr)
        · exact absurd hbr hba
    · intro b hb
      obtain ⟨hbn, hba⟩ := hin b (List.mem_append_right _ hb)
      rcases List.mem_append.mp (hall b hbn) with hbl | hbr
      · rcases hback.1.mem b hbl with hbl | hbl
        · exact absurd rfl (hdisj b hbl b hb)
        · exact absurd hbl hba
      · exact hbr

/-- All links but one are those of the nodes. -/
theorem Owns.foreign_unique (h : Owns t) (hnodes : t.nodes.Nodup) (hx : x ∈ t.backs)
    (hy : y ∈ t.backs) (hxn : x ∉ t.nodes) (hyn : y ∉ t.nodes) : x = y := by
  by_contra hne
  have hnodup : (x :: y :: t.nodes).Nodup := by
    rw [List.nodup_cons, List.nodup_cons, List.mem_cons, not_or]
    exact ⟨⟨hne, hxn⟩, hyn, hnodes⟩
  have hsub : x :: y :: t.nodes ⊆ t.backs := by
    intro a ha
    rcases List.mem_cons.mp ha with rfl | ha
    · exact hx
    · rcases List.mem_cons.mp ha with rfl | ha
      · exact hy
      · exact h.mem_backs a ha
  have hlen := (hnodup.subperm hsub).length_le
  rw [length_backs, List.length_cons, List.length_cons] at hlen
  omega

variable [LinearOrder ι] {pos : α → ι} {bit : α → ι → Bool} {base lo d : ι} {f : ι → Bool}

/-- The part of the tree where the search first tests a position from `d` on. -/
def reach (pos : α → ι) (f : ι → Bool) (d : ι) : BackTree α → BackTree α
  | back a => back a
  | node a l r =>
    if d ≤ pos a then node a l r
    else if f (pos a) then r.reach pos f d else l.reach pos f d

theorem Owns.reach (h : Owns t) (hnodup : t.nodes.Nodup) :
    Owns (t.reach pos f d) ∧ (t.reach pos f d).nodes.Nodup := by
  induction t with
  | back a => exact ⟨trivial, List.nodup_nil⟩
  | node a l r ihl ihr =>
    have hboth := hnodup
    rw [nodes, List.nodup_cons, List.nodup_append] at hboth
    rw [BackTree.reach]
    split
    next => exact ⟨h, hnodup⟩
    next =>
      split
      next => exact ihr h.2.2 hboth.2.2.1
      next => exact ihl h.2.1 hboth.2.1

theorem Sorted.le_of_reach (h : Sorted pos bit base lo t) :
    ∀ a ∈ (t.reach pos f d).nodes, d ≤ pos a := by
  induction t generalizing lo with
  | back a => simp [reach, nodes]
  | node a l r ihl ihr =>
    obtain ⟨hsplit, hl, hr⟩ := h
    rw [reach]
    split
    next hle =>
      intro b hb
      rw [nodes, List.mem_cons, List.mem_append] at hb
      rcases hb with rfl | hb | hb
      · exact hle
      · exact hle.trans (hl.lt_pos b hb).le
      · exact hle.trans (hr.lt_pos b hb).le
    next =>
      split
      next => exact ihr hr
      next => exact ihl hl

/-- A key that agrees up to `d` has its link there. -/
theorem Sorted.mem_reach (h : Sorted pos bit base lo t) (hbase : base ≤ lo) (hx : x ∈ t.backs)
    (hagree : Agree base d f (bit x)) : x ∈ (t.reach pos f d).backs := by
  induction t generalizing lo with
  | back a => exact hx
  | node a l r ihl ihr =>
    obtain ⟨hsplit, hl, hr⟩ := h
    have hbase' : base < pos a := hbase.trans_lt hsplit.below
    rw [reach]
    split
    next => exact hx
    next hlt =>
      have hturn := hagree (pos a) hbase' (not_le.mp hlt)
      rcases List.mem_append.mp hx with hin | hin
      · rw [hturn, hsplit.left x hin, if_neg Bool.false_ne_true]
        exact ihl hl hbase'.le hin
      · rw [hturn, hsplit.right x hin, if_pos rfl]
        exact ihr hr hbase'.le hin

/-- Of two nodes whose keys agree with `f` up to `d` and that test positions before `d`, there is
only one. -/
theorem Sorted.unique_above (h : Sorted pos bit base lo t) (hbase : base ≤ lo) (howns : Owns t)
    (hnodup : t.nodes.Nodup) (hx : x ∈ t.backs) (hy : y ∈ t.backs)
    (hxagree : Agree base d f (bit x)) (hyagree : Agree base d f (bit y)) (hxd : pos x < d)
    (hyd : pos y < d) : x = y := by
  obtain ⟨howns', hnodup'⟩ : Owns (t.reach pos f d) ∧ (t.reach pos f d).nodes.Nodup :=
    howns.reach hnodup
  refine howns'.foreign_unique hnodup' (h.mem_reach hbase hx hxagree) (h.mem_reach hbase hy hyagree)
    (fun hin => ?_) fun hin => ?_
  · exact absurd (h.le_of_reach x hin) (not_le.mpr hxd)
  · exact absurd (h.le_of_reach y hin) (not_le.mpr hyd)

/-- A search passes each node that another one passes as long as it turns the same way above. -/
theorem Sorted.mem_path (h : Sorted pos bit base lo t) {g : ι → Bool}
    (hx : x ∈ t.path fun a => g (pos a))
    (hsame : ∀ a ∈ t.nodes, pos a < pos x → f (pos a) = g (pos a)) :
    x ∈ t.path fun a => f (pos a) := by
  induction t generalizing lo with
  | back a => exact hx
  | node a l r ihl ihr =>
    obtain ⟨hsplit, hl, hr⟩ := h
    rw [path] at hx ⊢
    rcases List.mem_cons.mp hx with rfl | hin
    · exact List.mem_cons_self
    · refine List.mem_cons_of_mem a ?_
      by_cases hgo : g (pos a) = true
      · rw [if_pos hgo] at hin
        have hturn := hsame a List.mem_cons_self (hr.lt_pos x (path_mem_nodes x hin))
        rw [hturn, if_pos hgo]
        exact ihr hr hin fun b hb => hsame b (by simp [nodes, hb])
      · rw [if_neg hgo] at hin
        have hturn := hsame a List.mem_cons_self (hl.lt_pos x (path_mem_nodes x hin))
        rw [hturn, if_neg hgo]
        exact ihl hl hin fun b hb => hsame b (by simp [nodes, hb])

/-- Positions rise along a search. -/
theorem Sorted.path_rises (h : Sorted pos bit base lo t) (go : α → Bool) :
    (t.path go).Pairwise fun a b => pos a < pos b := by
  induction t generalizing lo with
  | back a => exact List.Pairwise.nil
  | node a l r ihl ihr =>
    obtain ⟨hsplit, hl, hr⟩ := h
    rw [path]
    split
    next => exact List.pairwise_cons.mpr ⟨fun b hb => hr.lt_pos b (path_mem_nodes b hb), ihr hr⟩
    next => exact List.pairwise_cons.mpr ⟨fun b hb => hl.lt_pos b (path_mem_nodes b hb), ihl hl⟩

/-- Every node has a key below it, besides its own, that agrees with it up to its position. -/
theorem Sorted.exists_agree (h : Sorted pos bit base lo t) (howns : Owns t) (hx : x ∈ t.nodes) :
    ∃ y ∈ t.backs, y ≠ x ∧ Agree base (pos x) (bit x) (bit y) := by
  induction t generalizing lo with
  | back a => simp [nodes] at hx
  | node a l r ihl ihr =>
    have hnodup := h.nodup_backs
    obtain ⟨hsplit, hl, hr⟩ := h
    rw [nodes, List.mem_cons, List.mem_append] at hx
    rcases hx with rfl | hin | hin
    · have hown := howns.1 x List.mem_cons_self
      rw [backs, List.nodup_append] at hnodup
      rcases List.mem_append.mp hown with hxl | hxr
      · have hy := closest_mem_backs (fun _ => true) r
        refine ⟨_, List.mem_append_right _ hy, fun heq => hnodup.2.2 x hxl _ hy heq.symm, ?_⟩
        exact hsplit.agree x hown _ (List.mem_append_right _ hy)
      · have hy := closest_mem_backs (fun _ => true) l
        refine ⟨_, List.mem_append_left _ hy, hnodup.2.2 _ hy x hxr, ?_⟩
        exact hsplit.agree x hown _ (List.mem_append_left _ hy)
    · obtain ⟨y, hy, hne, hagree⟩ := ihl hl howns.2.1 hin
      exact ⟨y, List.mem_append_left _ hy, hne, hagree⟩
    · obtain ⟨y, hy, hne, hagree⟩ := ihr hr howns.2.2 hin
      exact ⟨y, List.mem_append_right _ hy, hne, hagree⟩

end Own

end BackTree
