import LearningSwitch.PatriciaLinks

namespace LearningSwitch

open BackTree

variable {α δ σ : Type}

/-- Where a search for `key` turns. -/
def PatHeap.go (s : PatHeap α δ) (key : UInt64) (a : α) : Bool :=
  keyBit key (s.pos a)

/-- What a walk down the tree relies on: it starts behind `lo`, every node has a position that an
address has, and all links lead to nodes. -/
structure PatHeap.Walkable (s : PatHeap α δ) (lo : Int) (p : Option α) (t : BackTree α) : Prop where
  links : s.Links p t
  rises : t.Rises s.pos lo
  low : -1 ≤ lo
  high : ∀ a ∈ t.nodes, s.pos a ≤ 31
  live : ∀ a ∈ t.backs, s.node a ≠ none

section Walk

variable {s : PatHeap α δ} {lo : Int} {p : Option α} {t : BackTree α}

theorem PatHeap.Walkable.root (h : s.Walkable lo p t) :
    ∃ a c, p = some a ∧ s.node a = some c := by
  cases t with
  | back a =>
    obtain ⟨c, hc⟩ := Option.ne_none_iff_exists'.mp (h.live a (by simp [backs]))
    exact ⟨a, c, h.links, hc⟩
  | node a l r =>
    obtain ⟨hp, c, hc, _⟩ := h.links
    exact ⟨a, c, hp, hc⟩

theorem PatHeap.Walkable.step {a : α} {l r : BackTree α} (h : s.Walkable lo p (.node a l r)) :
    ∃ c, p = some a ∧ s.node a = some c ∧ 0 ≤ c.pB.toInt ∧ c.pB.toInt ≤ 31 ∧
      lo < c.pB.toInt ∧ ∀ right : Bool,
        s.Walkable c.pB.toInt (c.child right) (if right then r else l) := by
  obtain ⟨hp, c, hc, hl, hr⟩ := h.links
  obtain ⟨hlo, hrl, hrr⟩ := h.rises
  have hhigh := h.high a (by simp [nodes])
  have hlow := h.low
  rw [PatHeap.pos_eq hc] at hlo hrl hrr hhigh
  refine ⟨c, hp, hc, by omega, hhigh, hlo, fun right => ?_⟩
  cases right with
  | false =>
    exact ⟨hl, hrl, by omega, fun b (hb : b ∈ l.nodes) => h.high b (by simp [nodes, hb]),
      fun b (hb : b ∈ l.backs) => h.live b (by simp [backs, hb])⟩
  | true =>
    exact ⟨hr, hrr, by omega, fun b (hb : b ∈ r.nodes) => h.high b (by simp [nodes, hb]),
      fun b (hb : b ∈ r.backs) => h.live b (by simp [backs, hb])⟩

/-- The next pointer leads up exactly when it is a link back. -/
theorem PatHeap.Walkable.back_iff (h : s.Walkable lo p t) {a : α} (hp : p = some a) :
    (s.pos a ≤ lo ↔ ∃ b, t = .back b) := by
  cases t with
  | back b =>
    have hab : a = b := Option.some.inj (hp.symm.trans h.links)
    exact ⟨fun _ => ⟨b, rfl⟩, fun _ => hab ▸ h.rises⟩
  | node b l r =>
    have hab : a = b := Option.some.inj (hp.symm.trans h.links.1)
    have hlo := h.rises.1
    subst hab
    constructor
    · intro hle
      omega
    · rintro ⟨_, heq⟩
      cases heq

/-- Positions rise along the way, so it is short. -/
theorem PatHeap.Walkable.length_path (h : s.Walkable lo p t) (hlo : lo ≤ 31) (go : α → Bool) :
    ((t.path go).length : Int) ≤ 31 - lo := by
  induction t generalizing lo p with
  | back a =>
    rw [path, List.length_nil]
    omega
  | node a l r ihl ihr =>
    obtain ⟨c, _, _, _, h31, hbelow, hchild⟩ := h.step
    rw [path, List.length_cons]
    cases go a with
    | false =>
      have hlen := ihl (hchild false) h31
      rw [if_neg Bool.false_ne_true]
      omega
    | true =>
      have hlen := ihr (hchild true) h31
      rw [if_pos rfl]
      omega

theorem descend_ok {a : α} {l r : BackTree α} (h : s.Walkable lo p (.node a l r)) {key : UInt64}
    (hkey : key.toNat < 2 ^ 32) {visit : σ → α → Except PatFault σ} {v : σ → α → σ}
    (hvisit : ∀ seen, ∀ b ∈ (BackTree.node a l r).path (s.go key), visit seen b = .ok (v seen b))
    {fuel : Nat} (hfuel : ((BackTree.node a l r).path (s.go key)).length ≤ fuel) (seen : σ) :
    descend s key visit fuel seen a =
      .ok (((BackTree.node a l r).path (s.go key)).foldl v seen,
        (BackTree.node a l r).closest (s.go key)) := by
  induction fuel generalizing lo p a l r seen with
  | zero => simp [path] at hfuel
  | succ fuel ih =>
    obtain ⟨c, _, hc, h0, h31, _, hchild⟩ := h.step
    have hgo : s.go key a = keyBit key c.pB.toInt := by rw [PatHeap.go, PatHeap.pos_eq hc]
    have hnext := hchild (keyBit key c.pB.toInt)
    obtain ⟨b, c', hb, hc'⟩ := hnext.root
    rw [path_node, hgo] at hvisit hfuel
    rw [path_node, closest_node, hgo, List.foldl_cons, descend, hvisit seen a List.mem_cons_self,
      StepRun.ok_bind, PatHeap.load_ok hc, StepRun.ok_bind, bitSet_ok hkey h0 h31,
      StepRun.ok_bind, hb]
    show (s.load b >>= _) = _
    rw [PatHeap.load_ok hc', StepRun.ok_bind]
    rw [hb] at hnext
    generalize (if keyBit key c.pB.toInt = true then r else l) = u at hnext hvisit hfuel ⊢
    have hback := hnext.back_iff rfl
    rw [PatHeap.pos_eq hc'] at hback
    cases u with
    | back d =>
      have hle := hback.mpr ⟨d, rfl⟩
      rw [if_neg (by omega)]
      have hbd : b = d := Option.some.inj hnext.links
      rw [path, List.foldl_nil, closest, hbd]
    | node d l' r' =>
      have hlt : ¬c'.pB.toInt ≤ c.pB.toInt := by
        intro hle
        obtain ⟨_, heq⟩ := hback.mp hle
        cases heq
      rw [if_pos (by omega)]
      have hbd : b = d := Option.some.inj hnext.links.1
      subst hbd
      refine ih hnext (fun seen e he => hvisit seen e (List.mem_cons_of_mem a he)) ?_ (v seen a)
      exact Nat.le_of_succ_le_succ hfuel

end Walk

section Insert

variable [DecidableEq α] {s : PatHeap α δ} {n : α} {cn : Ptree α δ} {d : Int}

/-- A new node at position `d` of the heap. -/
def PatHeap.place (s : PatHeap α δ) (n : α) (cn : Ptree α δ) (d : Int) : PatHeap α δ :=
  s.store n { cn with pB := .ofInt d }

theorem PatHeap.pos_place (s : PatHeap α δ) (n : α) (cn : Ptree α δ) (h0 : 0 ≤ d) (h31 : d ≤ 31) :
    (s.place n cn d).pos = Function.update s.pos n d := by
  funext a
  by_cases ha : a = n
  · subst ha
    rw [PatHeap.place, PatHeap.pos_eq (PatHeap.node_store_self ..), Function.update_self]
    exact Int8.toInt_ofInt_of_le (by omega) (by omega)
  · rw [PatHeap.place, Function.update_of_ne ha, PatHeap.pos, PatHeap.pos,
      PatHeap.node_store_ne _ _ ha]

theorem PatHeap.key_place (hn : s.node n = some cn) : (s.place n cn d).key = s.key := by
  funext a
  by_cases ha : a = n
  · subst ha
    rw [PatHeap.place, PatHeap.key_eq (PatHeap.node_store_self ..), PatHeap.key_eq hn]
  · rw [PatHeap.place, PatHeap.key, PatHeap.key, PatHeap.node_store_ne _ _ ha]

/-- A store of one link. -/
theorem links_setChild {a : α} {c : Ptree α δ} {x : Option α} {u sib : BackTree α} (right : Bool)
    (hu : s.Links x u) (hsib : s.Links (c.child !right) sib) (hau : a ∉ u.nodes)
    (hasib : a ∉ sib.nodes) : (s.store a (c.setChild right x)).Links (some a)
      (if right then .node a sib u else .node a u sib) := by
  have hu' : (s.store a (c.setChild right x)).Links x u :=
    hu.frame fun b hb => PatHeap.node_store_ne s _ fun heq => hau (heq ▸ hb)
  have hsib' : (s.store a (c.setChild right x)).Links (c.child !right) sib :=
    hsib.frame fun b hb => PatHeap.node_store_ne s _ fun heq => hasib (heq ▸ hb)
  cases right with
  | false => exact ⟨rfl, _, PatHeap.node_store_self .., hu', hsib'⟩
  | true => exact ⟨rfl, _, PatHeap.node_store_self .., hsib', hu'⟩

/-- The new node over what `h` leads to. -/
theorem links_join {h : α} {u : BackTree α} (hlinks : s.Links (some h) u) (hfresh : n ∉ u.nodes)
    (right : Bool) :
    (s.store n { cn with
      pB := .ofInt d
      pLeft := some (if right then h else n)
      pRight := some (if right then n else h) }).Links (some n) (join n right u) := by
  have hframe : ∀ c : Ptree α δ, (s.store n c).Links (some h) u := fun c =>
    hlinks.frame fun a ha => PatHeap.node_store_ne s c fun heq => hfresh (heq ▸ ha)
  cases right with
  | false => exact ⟨rfl, _, PatHeap.node_store_self .., rfl, hframe _⟩
  | true => exact ⟨rfl, _, PatHeap.node_store_self .., hframe _, rfl⟩

/-- The node `n` went into the tree `t`, which became `u` behind `x`. Nothing outside `t` changed,
and of a cell nothing but its links and the position of `n`. -/
structure PatHeap.Inserted (s : PatHeap α δ) (n : α) (cn : Ptree α δ) (d : Int) (t : BackTree α)
    (x : α) (u : BackTree α) (s' : PatHeap α δ) : Prop where
  links : s'.Links (some x) u
  data : (s.place n cn d).SameData s'
  others : ∀ a, a ≠ n → a ∉ t.nodes → s'.node a = s.node a
  freed : s'.freed = s.freed

theorem PatHeap.sameData_place (s : PatHeap α δ) (n : α) (cn : Ptree α δ) (d : Int)
    (left right : Option α) : (s.place n cn d).SameData
      (s.store n { cn with pB := .ofInt d, pLeft := left, pRight := right }) := by
  intro a
  by_cases ha : a = n
  · subst ha
    rw [PatHeap.place, PatHeap.node_store_self, PatHeap.node_store_self]
    rfl
  · rw [PatHeap.place, PatHeap.node_store_ne _ _ ha, PatHeap.node_store_ne _ _ ha]

section Step

variable {a p : α} {ca cp : Ptree α δ} {fuel : Nat}

/-- The node goes over the tree that the link from `p` leads to. -/
theorem insertR_here (hn : s.node n = some cn) (hkey : cn.pKey.toNat < 2 ^ 32) (h0 : 0 ≤ d)
    (h31 : d ≤ 31) (ha : s.node a = some ca) (hp : s.node p = some cp)
    (hcond : d ≤ ca.pB.toInt ∨ ca.pB.toInt ≤ cp.pB.toInt) {t : BackTree α}
    (hlinks : s.Links (some a) t) (hfresh : n ∉ t.nodes) :
    ∃ s', insertR s n d (fuel + 1) (some a) p = .ok (n, s') ∧
      s.Inserted n cn d t n (join n (s.bits n d) t) s' := by
  have hbits : s.bits n d = keyBit cn.pKey d := by rw [PatHeap.bits, PatHeap.key_eq hn]
  refine ⟨_, ?_, links_join hlinks hfresh (s.bits n d), s.sameData_place n cn d _ _,
    fun b hb _ => PatHeap.node_store_ne _ _ hb, rfl⟩
  rw [hbits, insertR, show deref (some a) = .ok a from rfl, StepRun.ok_bind, PatHeap.load_ok ha,
    StepRun.ok_bind, PatHeap.load_ok hp, StepRun.ok_bind, PatHeap.load_ok hn, StepRun.ok_bind,
    if_pos hcond, bitSet_ok hkey h0 h31]
  rfl

/-- The node goes further down, and the link to what it went into is stored anew. -/
theorem insertR_down (hn : s.node n = some cn) (hkey : cn.pKey.toNat < 2 ^ 32)
    (ha : s.node a = some ca) (hp : s.node p = some cp) (h0 : 0 ≤ ca.pB.toInt)
    (h31 : ca.pB.toInt ≤ 31) (hcond : ¬(d ≤ ca.pB.toInt ∨ ca.pB.toInt ≤ cp.pB.toInt))
    {right : Bool} (hright : keyBit cn.pKey ca.pB.toInt = right) {x : α} {s₁ : PatHeap α δ}
    (hrec : insertR s n d fuel (ca.child right) a = .ok (x, s₁)) (hsame : s₁.node a = some ca) :
    insertR s n d (fuel + 1) (some a) p = .ok (a, s₁.store a (ca.setChild right (some x))) := by
  rw [insertR, show deref (some a) = .ok a from rfl, StepRun.ok_bind, PatHeap.load_ok ha,
    StepRun.ok_bind, PatHeap.load_ok hp, StepRun.ok_bind, PatHeap.load_ok hn, StepRun.ok_bind,
    if_neg hcond, bitSet_ok hkey h0 h31, StepRun.ok_bind, hright, hrec, StepRun.ok_bind]
  show (s₁.load a >>= _) = _
  rw [PatHeap.load_ok hsame]
  rfl

/-- What went into one subtree of `a` went into the tree of `a`, once the link to it is stored. -/
theorem PatHeap.Inserted.graft {t sib u : BackTree α} {x : α} {s₁ : PatHeap α δ} (right : Bool)
    (h : s.Inserted n cn d t x u s₁) (hu : u.nodes.Perm (n :: t.nodes)) (ha : s.node a = some ca)
    (hsib : s.Links (ca.child !right) sib)
    (hnodup : (if right then BackTree.node a sib t else .node a t sib).nodes.Nodup)
    (hfresh : n ∉ (if right then BackTree.node a sib t else .node a t sib).nodes) :
    s₁.node a = some ca ∧ s.Inserted n cn d (if right then .node a sib t else .node a t sib) a
      (if right then .node a sib u else .node a u sib)
      (s₁.store a (ca.setChild right (some x))) := by
  have hperm : (if right then BackTree.node a sib t else .node a t sib).nodes.Perm
      (a :: (t.nodes ++ sib.nodes)) := by
    cases right with
    | false => exact List.Perm.refl _
    | true => exact List.Perm.cons a List.perm_append_comm
  rw [hperm.nodup_iff, List.nodup_cons, List.mem_append, not_or, List.nodup_append] at hnodup
  rw [hperm.mem_iff, List.mem_cons, List.mem_append, not_or, not_or] at hfresh
  obtain ⟨⟨hat, hasib⟩, _, _, hdisj⟩ := hnodup
  obtain ⟨hna, hnt, hnsib⟩ := hfresh
  have hsame : s₁.node a = some ca := (h.others a (Ne.symm hna) hat).trans ha
  have hsib₁ : s₁.Links (ca.child !right) sib := hsib.frame fun b hb =>
    h.others b (fun heq => hnsib (heq ▸ hb)) fun hbt => hdisj b hbt b hb rfl
  have hau : a ∉ u.nodes := by
    intro hin
    rcases List.mem_cons.mp (hu.mem_iff.mp hin) with heq | hin
    · exact hna heq.symm
    · exact hat hin
  refine ⟨hsame, links_setChild right h.links hsib₁ hau hasib, ?_, fun b hbn hb => ?_, h.freed⟩
  · exact h.data.trans (PatHeap.sameData_store hsame (Ptree.data_setChild ..))
  · rw [hperm.mem_iff, List.mem_cons, List.mem_append, not_or, not_or] at hb
    rw [PatHeap.node_store_ne _ _ hb.1, h.others b hbn hb.2.1]

end Step

theorem insertR_ok (hn : s.node n = some cn) (hkey : cn.pKey.toNat < 2 ^ 32) (h0 : 0 ≤ d)
    (h31 : d ≤ 31) {lo : Int} {h : Option α} {u : BackTree α} (hwalk : s.Walkable lo h u)
    (hnodup : u.nodes.Nodup) (hfresh : n ∉ u.nodes) {p : α} {cp : Ptree α δ}
    (hp : s.node p = some cp) (hlo : cp.pB.toInt = lo) {fuel : Nat}
    (hfuel : (u.path (s.go cn.pKey)).length < fuel) :
    ∃ x s', insertR s n d fuel h p = .ok (x, s') ∧
      s.Inserted n cn d u x (u.insert (Function.update s.pos n d) s.bits n) s' := by
  induction fuel generalizing lo h u p cp with
  | zero => omega
  | succ fuel ih =>
    obtain ⟨a, ca, rfl, ha⟩ := hwalk.root
    cases u with
    | back b =>
      have hle := (hwalk.back_iff rfl).mpr ⟨b, rfl⟩
      rw [PatHeap.pos_eq ha] at hle
      rw [BackTree.insert, Function.update_self]
      exact ⟨n, insertR_here hn hkey h0 h31 ha hp (Or.inr (hlo ▸ hle)) hwalk.links hfresh⟩
    | node b l r =>
      obtain ⟨cb, hab, hb, hb0, hb31, hbelow, hchild⟩ := hwalk.step
      obtain rfl := Option.some.inj hab
      obtain rfl := Option.some.inj (ha.symm.trans hb)
      have han : a ≠ n := fun heq => hfresh (by simp [nodes, heq])
      rw [BackTree.insert, Function.update_self, Function.update_of_ne han, PatHeap.pos_eq ha]
      by_cases hd : d ≤ ca.pB.toInt
      · rw [if_pos hd]
        exact ⟨n, insertR_here hn hkey h0 h31 ha hp (Or.inl hd) hwalk.links hfresh⟩
      · have hright : s.bits n ca.pB.toInt = keyBit cn.pKey ca.pB.toInt := by
          rw [PatHeap.bits, PatHeap.key_eq hn]
        have hcond : ¬(d ≤ ca.pB.toInt ∨ ca.pB.toInt ≤ cp.pB.toInt) := by omega
        rw [if_neg hd, hright]
        rw [path_node, PatHeap.go, PatHeap.pos_eq ha, List.length_cons] at hfuel
        obtain ⟨hl, hr, _⟩ := List.nodup_append.mp (List.nodup_cons.mp hnodup).2
        have hnl : n ∉ l.nodes := fun hin => hfresh (by simp [nodes, hin])
        have hnr : n ∉ r.nodes := fun hin => hfresh (by simp [nodes, hin])
        cases hgo : keyBit cn.pKey ca.pB.toInt with
        | false =>
          rw [hgo] at hfuel
          obtain ⟨x, s₁, hrec, hins⟩ := ih (hchild false) hl hnl ha rfl (by omega)
          obtain ⟨hsame, hins⟩ := hins.graft false (nodes_insert l) ha (hchild true).links
            hnodup hfresh
          exact ⟨a, _, insertR_down hn hkey ha hp hb0 hb31 hcond hgo hrec hsame, hins⟩
        | true =>
          rw [hgo] at hfuel
          obtain ⟨x, s₁, hrec, hins⟩ := ih (hchild true) hr hnr ha rfl (by omega)
          obtain ⟨hsame, hins⟩ := hins.graft true (nodes_insert r) ha (hchild false).links
            hnodup hfresh
          exact ⟨a, _, insertR_down hn hkey ha hp hb0 hb31 hcond hgo hrec hsame, hins⟩

/-- Without a position that differs, the test of the new node's own bit is a shift by `-1`. -/
theorem insertR_fault (hn : s.node n = some cn) (hkey : cn.pKey.toNat < 2 ^ 32) (hd : 31 < d)
    {lo : Int} {h : Option α} {u : BackTree α} (hwalk : s.Walkable lo h u) {p : α}
    {cp : Ptree α δ} (hp : s.node p = some cp) (hlo : cp.pB.toInt = lo) {fuel : Nat}
    (hfuel : (u.path (s.go cn.pKey)).length < fuel) :
    insertR s n d fuel h p = .error (.shift d) := by
  induction fuel generalizing lo h u p cp with
  | zero => omega
  | succ fuel ih =>
    obtain ⟨a, ca, rfl, ha⟩ := hwalk.root
    rw [insertR, show deref (some a) = .ok a from rfl, StepRun.ok_bind, PatHeap.load_ok ha,
      StepRun.ok_bind, PatHeap.load_ok hp, StepRun.ok_bind, PatHeap.load_ok hn, StepRun.ok_bind, hlo]
    cases u with
    | back b =>
      have hle := (hwalk.back_iff rfl).mpr ⟨b, rfl⟩
      rw [PatHeap.pos_eq ha] at hle
      rw [if_pos (Or.inr hle), bitSet_fault hd]
      rfl
    | node b l r =>
      obtain ⟨cb, hab, hb, hb0, hb31, hbelow, hchild⟩ := hwalk.step
      obtain rfl := Option.some.inj hab
      obtain rfl := Option.some.inj (ha.symm.trans hb)
      rw [path_node, PatHeap.go, PatHeap.pos_eq ha, List.length_cons] at hfuel
      rw [if_neg (by omega), bitSet_ok hkey hb0 hb31, StepRun.ok_bind,
        ih (hchild (keyBit cn.pKey ca.pB.toInt)) ha rfl (by omega)]
      rfl

end Insert

section Remove

variable {s : PatHeap α δ} {t t' : BackTree α} {p : α} {go : α → Bool}

theorem path_eq_nil (go : α → Bool) (t : BackTree α) : t.path go = [] ↔ ∃ b, t = .back b := by
  cases t with
  | back b => simp [path]
  | node a l r => simp [path]

/-- The part of the tree behind a node on the way. -/
theorem PatHeap.Walkable.behind {lo : Int} {q : Option α} (h : s.Walkable lo q t)
    {pre post : List α} (hpath : t.path go = pre ++ p :: post) :
    ∃ lo' l r, s.Walkable lo' (some p) (.node p l r) ∧
      (BackTree.node p l r).path go = p :: post ∧
      (BackTree.node p l r).closest go = t.closest go := by
  induction t generalizing lo q pre with
  | back a => simp [path] at hpath
  | node a l r ihl ihr =>
    obtain ⟨c, hq, _, _, _, _, hchild⟩ := h.step
    cases pre with
    | nil =>
      have hap : a = p := by
        rw [path, List.nil_append, List.cons.injEq] at hpath
        exact hpath.1
      subst hap
      exact ⟨lo, l, r, hq ▸ h, hpath, rfl⟩
    | cons b pre =>
      rw [path, List.cons_append, List.cons.injEq] at hpath
      rw [closest]
      cases hgo : go a with
      | false =>
        rw [hgo, if_neg Bool.false_ne_true] at hpath
        rw [if_neg Bool.false_ne_true]
        exact ihl (hchild false) hpath.2
      | true =>
        rw [hgo, if_pos rfl] at hpath
        rw [if_pos rfl]
        exact ihr (hchild true) hpath.2

variable [DecidableEq α]

/-- The last link of the way stored anew. -/
theorem PatHeap.Links.relink {q : Option α} (h : s.Links q t) (hnodup : t.nodes.Nodup)
    {pre : List α} (hpath : t.path go = pre ++ [p]) {c : Ptree α δ} (hc : s.node p = some c)
    (b : α) : (s.store p (c.setChild (go p) (some b))).Links q (t.relink go b) := by
  induction t generalizing q pre with
  | back a => simp [path] at hpath
  | node a l r ihl ihr =>
    obtain ⟨hq, ca, ha, hl, hr⟩ := h
    rw [nodes, List.nodup_cons, List.nodup_append] at hnodup
    obtain ⟨hanodes, hlnodup, hrnodup, hdisj⟩ := hnodup
    rw [List.mem_append, not_or] at hanodes
    rw [path] at hpath
    subst hq
    cases pre with
    | nil =>
      rw [List.nil_append, List.cons.injEq] at hpath
      obtain ⟨rfl, hend⟩ := hpath
      obtain rfl := Option.some.inj (hc.symm.trans ha)
      cases hgo : go a with
      | false =>
        rw [hgo, if_neg Bool.false_ne_true, path_eq_nil] at hend
        obtain ⟨d, rfl⟩ := hend
        have hset := links_setChild (c := c) (x := some b) (u := .back b) false rfl hr
          (by simp [nodes]) hanodes.2
        simpa [BackTree.relink, hgo] using hset
      | true =>
        rw [hgo, if_pos rfl, path_eq_nil] at hend
        obtain ⟨d, rfl⟩ := hend
        have hset := links_setChild (c := c) (x := some b) (u := .back b) true rfl hl
          (by simp [nodes]) hanodes.1
        simpa [BackTree.relink, hgo] using hset
    | cons d pre =>
      rw [List.cons_append, List.cons.injEq] at hpath
      obtain ⟨rfl, hpath⟩ := hpath
      cases hgo : go a with
      | false =>
        rw [hgo, if_neg Bool.false_ne_true] at hpath
        have hp : p ∈ l.nodes := mem_nodes_of_path hpath
        have hpa : a ≠ p := fun heq => hanodes.1 (heq ▸ hp)
        rw [BackTree.relink, hgo, if_neg Bool.false_ne_true]
        refine ⟨rfl, ca, (PatHeap.node_store_ne _ _ hpa).trans ha, ihl hl hlnodup hpath, ?_⟩
        exact hr.frame fun e he => PatHeap.node_store_ne _ _ fun heq => hdisj p hp e he heq.symm
      | true =>
        rw [hgo, if_pos rfl] at hpath
        have hp : p ∈ r.nodes := mem_nodes_of_path hpath
        have hpa : a ≠ p := fun heq => hanodes.2 (heq ▸ hp)
        rw [BackTree.relink, hgo, if_pos rfl]
        refine ⟨rfl, ca, (PatHeap.node_store_ne _ _ hpa).trans ha, ?_, ihr hr hrnodup hpath⟩
        exact hl.frame fun e he => PatHeap.node_store_ne _ _ fun heq => hdisj e he p hp heq

omit [DecidableEq α] in
/-- What the other link of the last node leads to. -/
theorem links_other {x : α} (hcut : Cuts go p x t t') (hpath : t.path go = [p]) {q : Option α}
    (h : s.Links q t) {c : Ptree α δ} (hc : s.node p = some c) : s.Links (c.child !go p) t' := by
  cases hcut with
  | right hgo =>
    obtain ⟨_, c', hc', hl, _⟩ := h
    obtain rfl := Option.some.inj (hc.symm.trans hc')
    rw [hgo]
    exact hl
  | left hgo =>
    obtain ⟨_, c', hc', _, hr⟩ := h
    obtain rfl := Option.some.inj (hc.symm.trans hc')
    rw [hgo]
    exact hr
  | inRight hgo hr =>
    obtain ⟨pre, hpre⟩ := hr.path
    simp [path, hgo, hpre] at hpath
  | inLeft hgo hl =>
    obtain ⟨pre, hpre⟩ := hl.path
    simp [path, hgo, hpre] at hpath

/-- The link to the last node of the way led past it. -/
theorem PatHeap.Links.cut {x g : α} (hcut : Cuts go p x t t') {q : Option α} (h : s.Links q t)
    (hnodup : t.nodes.Nodup) {pre : List α} (hpath : t.path go = pre ++ [g, p])
    {cg cp : Ptree α δ} (hg : s.node g = some cg) (hp : s.node p = some cp) :
    (s.store g (cg.setChild (go g) (cp.child !go p))).Links q t' := by
  induction hcut generalizing q pre with
  | right hgo =>
    have hlen := congrArg List.length hpath
    simp [path, hgo] at hlen
  | left hgo =>
    have hlen := congrArg List.length hpath
    simp [path, hgo] at hlen
  | @inRight a l r r' hgo hr ih =>
    obtain ⟨rfl, ca, ha, hl, hrlinks⟩ := h
    rw [nodes, List.nodup_cons, List.nodup_append] at hnodup
    obtain ⟨hanodes, _, hrnodup, hdisj⟩ := hnodup
    rw [List.mem_append, not_or] at hanodes
    rw [path, if_pos hgo] at hpath
    have hsub : ∀ e ∈ r'.nodes, e ∈ r.nodes := fun e he =>
      hr.nodes.mem_iff.mp (List.mem_cons_of_mem p he)
    cases pre with
    | nil =>
      rw [List.nil_append, List.cons.injEq] at hpath
      obtain ⟨rfl, hend⟩ := hpath
      obtain rfl := Option.some.inj (hg.symm.trans ha)
      have hother := links_other hr hend hrlinks hp
      rw [hgo]
      exact links_setChild true hother hl (fun hin => hanodes.2 (hsub a hin)) hanodes.1
    | cons d pre =>
      rw [List.cons_append, List.cons.injEq] at hpath
      obtain ⟨rfl, hpath⟩ := hpath
      have hgr : g ∈ r.nodes := mem_nodes_of_path hpath
      have hga : a ≠ g := fun heq => hanodes.2 (heq ▸ hgr)
      refine ⟨rfl, ca, (PatHeap.node_store_ne _ _ hga).trans ha, ?_, ih hrlinks hrnodup hpath⟩
      exact hl.frame fun e he => PatHeap.node_store_ne _ _ fun heq => hdisj e he g hgr heq
  | @inLeft a l l' r hgo hl ih =>
    obtain ⟨rfl, ca, ha, hllinks, hr⟩ := h
    rw [nodes, List.nodup_cons, List.nodup_append] at hnodup
    obtain ⟨hanodes, hlnodup, _, hdisj⟩ := hnodup
    rw [List.mem_append, not_or] at hanodes
    rw [path, hgo, if_neg Bool.false_ne_true] at hpath
    have hsub : ∀ e ∈ l'.nodes, e ∈ l.nodes := fun e he =>
      hl.nodes.mem_iff.mp (List.mem_cons_of_mem p he)
    cases pre with
    | nil =>
      rw [List.nil_append, List.cons.injEq] at hpath
      obtain ⟨rfl, hend⟩ := hpath
      obtain rfl := Option.some.inj (hg.symm.trans ha)
      have hother := links_other hl hend hllinks hp
      rw [hgo]
      exact links_setChild false hother hr (fun hin => hanodes.1 (hsub a hin)) hanodes.2
    | cons d pre =>
      rw [List.cons_append, List.cons.injEq] at hpath
      obtain ⟨rfl, hpath⟩ := hpath
      have hgl : g ∈ l.nodes := mem_nodes_of_path hpath
      have hga : a ≠ g := fun heq => hanodes.1 (heq ▸ hgl)
      refine ⟨rfl, ca, (PatHeap.node_store_ne _ _ hga).trans ha, ih hllinks hlnodup hpath, ?_⟩
      exact hr.frame fun e he => PatHeap.node_store_ne _ _ fun heq => hdisj g hgl e he heq.symm

end Remove

end LearningSwitch
