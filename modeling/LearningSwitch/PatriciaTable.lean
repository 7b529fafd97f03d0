import Mathlib.Data.List.Sort
import LearningSwitch.PatriciaTrie

namespace LearningSwitch

open BackTree

variable {α δ σ : Type}

/-- What the trie is for: the masks of every key, in ascending order and with their data; and the
data blocks that were given back. -/
structure PatTable (δ : Type) where
  masks : UInt64 → List (PtreeMask δ)
  freed : List δ

/-- The masks with one more, for which none of them has the value yet. -/
def insertMask (m : PtreeMask δ) (ms : List (PtreeMask δ)) : List (PtreeMask δ) :=
  ms.orderedInsert (fun x y => x.pmMask ≤ y.pmMask) m

/-- The masks where the given one has other data. -/
def replaceMask (m : PtreeMask δ) (ms : List (PtreeMask δ)) : List (PtreeMask δ) :=
  ms.map fun x => if x.pmMask = m.pmMask then m else x

/-- Two inputs are beyond the code: a new node for the key `0x80000000`, and a second mask for a
key that has the mask of a single host. -/
def PatTable.insert (T : PatTable δ) (key : UInt64) (m : PtreeMask δ) :
    Except PatFault (PatTable δ) :=
  let ms := T.masks (key &&& m.pmMask)
  if ms.isEmpty then
    if key &&& m.pmMask = 0x80000000 then .error (.shift 32)
    else .ok { T with masks := Function.update T.masks (key &&& m.pmMask) [m] }
  else if ∃ x ∈ ms, x.pmMask = m.pmMask then
    .ok { T with masks := Function.update T.masks (key &&& m.pmMask) (replaceMask m ms) }
  else if ∃ x ∈ ms, x.pmMask = 0xffffffff then .error .bufOverrun
  else .ok { T with masks := Function.update T.masks (key &&& m.pmMask) (insertMask m ms) }

/-- The last mask of a key takes the key and its data with it, except for the default entry. -/
def PatTable.remove (T : PatTable δ) (key mask : UInt64) : Int × PatTable δ :=
  match T.masks key with
  | [] => (0, T)
  | [x] =>
    if key = 0 ∨ x.pmMask ≠ mask then (0, T)
    else (1, {
      masks := Function.update T.masks key []
      freed := T.freed ++ x.pmData.toList })
  | ms =>
    if ∀ x ∈ ms, mask ≠ x.pmMask then (0, T)
    else (1, { T with masks := Function.update T.masks key (ms.filter (mask ≠ ·.pmMask)) })

theorem PatTable.remove_single {T : PatTable δ} {key mask : UInt64} {y : PtreeMask δ}
    (h : T.masks key = [y]) : T.remove key mask =
      if key = 0 ∨ y.pmMask ≠ mask then (0, T)
      else (1, {
        masks := Function.update T.masks key []
        freed := T.freed ++ y.pmData.toList }) := by
  rw [PatTable.remove, h]

theorem PatTable.remove_many {T : PatTable δ} {key mask : UInt64} {y z : PtreeMask δ}
    {zs : List (PtreeMask δ)} (h : T.masks key = y :: z :: zs) : T.remove key mask =
      if ∀ x ∈ y :: z :: zs, mask ≠ x.pmMask then (0, T)
      else (1, { T with
        masks := Function.update T.masks key ((y :: z :: zs).filter (mask ≠ ·.pmMask)) }) := by
  rw [PatTable.remove, h]

section Masks

variable {m : PtreeMask δ} {ms : List (PtreeMask δ)}

/-- The mask that stands for a host stops the copy loop from ever ending. -/
theorem mergeMasks_overrun (room : Nat) (copied : Bool) (hm : m.pmMask ≤ 0xffffffff)
    (hms : ∃ x ∈ ms, x.pmMask = 0xffffffff) :
    mergeMasks room m copied ms = .error .bufOverrun := by
  induction room generalizing copied m ms with
  | zero =>
    cases ms with
    | nil => simp at hms
    | cons x xs => cases copied <;> rfl
  | succ room ih =>
    cases ms with
    | nil => simp at hms
    | cons x xs =>
      rw [mergeMasks]
      by_cases hx : x.pmMask < m.pmMask
      · obtain ⟨y, hy, hhost⟩ := hms
        have hyx : y ≠ x := by
          rintro rfl
          rw [hhost] at hx
          exact UInt64.not_lt.mpr hm hx
        rw [if_pos hx, ih copied hm ⟨y, List.mem_of_ne_of_mem hyx hy, hhost⟩]
        rfl
      · have hagain : mergeMasks room { m with pmMask := 0xffffffff } true (x :: xs) =
            .error .bufOverrun := ih true (UInt64.le_refl _) hms
        rw [if_neg hx, hagain]
        rfl

theorem mergeMasks_copied {room : Nat} (hm : m.pmMask = 0xffffffff)
    (hms : ∀ x ∈ ms, x.pmMask < 0xffffffff) (hroom : ms.length ≤ room) :
    mergeMasks room m true ms = .ok ms := by
  induction ms generalizing room with
  | nil => cases room <;> rfl
  | cons x xs ih =>
    cases room with
    | zero => simp at hroom
    | succ room =>
      rw [List.length_cons, Nat.succ_le_succ_iff] at hroom
      rw [mergeMasks, hm, if_pos (hms x List.mem_cons_self),
        ih (fun y hy => hms y (List.mem_cons_of_mem x hy)) hroom]
      rfl

theorem mergeMasks_ok {room : Nat} (hms : ∀ x ∈ ms, x.pmMask < 0xffffffff)
    (hne : ∀ x ∈ ms, x.pmMask ≠ m.pmMask) (hroom : ms.length < room) :
    mergeMasks room m false ms = .ok (insertMask m ms) := by
  induction ms generalizing room with
  | nil =>
    cases room with
    | zero => simp at hroom
    | succ room => rfl
  | cons x xs ih =>
    cases room with
    | zero => simp at hroom
    | succ room =>
      rw [List.length_cons, Nat.succ_lt_succ_iff] at hroom
      rw [mergeMasks, insertMask, List.orderedInsert_cons]
      by_cases hx : x.pmMask < m.pmMask
      · rw [if_pos hx, if_neg (UInt64.not_le.mpr hx),
          ih (fun y hy => hms y (List.mem_cons_of_mem x hy))
            (fun y hy => hne y (List.mem_cons_of_mem x hy)) hroom]
        rfl
      · rw [if_neg hx, if_pos (UInt64.not_lt.mp hx), mergeMasks_copied rfl hms hroom]
        rfl

/-- What the copy loop makes of masks of addresses. -/
theorem mergeMasks_cases (hms : ∀ x ∈ ms, x.pmMask.toNat < 2 ^ 32) (hm : m.pmMask.toNat < 2 ^ 32)
    (hne : ∀ x ∈ ms, x.pmMask ≠ m.pmMask) : mergeMasks (ms.length + 1) m false ms =
      if ∃ x ∈ ms, x.pmMask = 0xffffffff then .error .bufOverrun else .ok (insertMask m ms) := by
  have hhost : (0xffffffff : UInt64).toNat = 2 ^ 32 - 1 := rfl
  by_cases hin : ∃ x ∈ ms, x.pmMask = 0xffffffff
  · rw [if_pos hin]
    refine mergeMasks_overrun _ _ (UInt64.le_iff_toNat_le.mpr ?_) hin
    omega
  · rw [if_neg hin]
    refine mergeMasks_ok (fun x hx => UInt64.lt_iff_toNat_lt.mpr ?_) hne (Nat.lt_succ_self _)
    have hlt := hms x hx
    have hnot : x.pmMask.toNat ≠ (0xffffffff : UInt64).toNat := fun heq =>
      hin ⟨x, hx, UInt64.toNat_inj.mp heq⟩
    omega

/-- The masks of a key, none of them twice. -/
def Ascending (ms : List (PtreeMask δ)) : Prop :=
  ms.Pairwise fun x y => x.pmMask < y.pmMask

theorem Ascending.inserted (h : Ascending ms) (hne : ∀ x ∈ ms, x.pmMask ≠ m.pmMask) :
    Ascending (insertMask m ms) := by
  induction ms with
  | nil => exact List.pairwise_singleton _ _
  | cons x xs ih =>
    obtain ⟨hx, hxs⟩ := List.pairwise_cons.mp h
    rw [insertMask, List.orderedInsert_cons]
    by_cases hle : m.pmMask ≤ x.pmMask
    · have hlt : m.pmMask < x.pmMask :=
        UInt64.lt_of_le_of_ne hle fun heq => hne x List.mem_cons_self heq.symm
      rw [if_pos hle]
      refine List.pairwise_cons.mpr ⟨fun y hy => ?_, h⟩
      rcases List.mem_cons.mp hy with rfl | hy
      · exact hlt
      · exact UInt64.lt_trans hlt (hx y hy)
    · rw [if_neg hle]
      refine List.pairwise_cons.mpr ⟨fun y hy => ?_,
        ih hxs fun y hy => hne y (List.mem_cons_of_mem x hy)⟩
      rcases (List.mem_orderedInsert _).mp hy with rfl | hy
      · exact UInt64.not_le.mp hle
      · exact hx y hy

theorem Ascending.replaced (h : Ascending ms) : Ascending (replaceMask m ms) := by
  refine List.pairwise_map.mpr (h.imp fun {x y} hxy => ?_)
  have hsame : ∀ z : PtreeMask δ, (if z.pmMask = m.pmMask then m else z).pmMask = z.pmMask := by
    intro z
    split
    next heq => exact heq.symm
    next => rfl
  rw [hsame, hsame]
  exact hxy

/-- The loop replaces the data of the first mask with the value, and there is no other. -/
theorem Ascending.modify (h : Ascending ms) {i : Nat}
    (hi : ms.findIdx? (fun x => m.pmMask = x.pmMask) = some i) :
    (ms.modify i fun x => { x with pmData := m.pmData }) = replaceMask m ms := by
  induction ms generalizing i with
  | nil => simp at hi
  | cons x xs ih =>
    obtain ⟨hx, hxs⟩ := List.pairwise_cons.mp h
    rw [List.findIdx?_cons] at hi
    by_cases heq : m.pmMask = x.pmMask
    · have hi0 : i = 0 := by simpa [heq] using hi.symm
      have hrest : replaceMask m xs = xs := by
        refine (List.map_congr_left fun y hy => ?_).trans (List.map_id xs)
        rw [if_neg, id]
        intro hym
        exact UInt64.ne_of_lt (hx y hy) (hym.trans heq).symm
      rw [hi0, List.modify_zero_cons, replaceMask, List.map_cons, if_pos heq.symm, ← replaceMask,
        hrest, ← heq]
    · have hnot : decide (m.pmMask = x.pmMask) = false := decide_eq_false heq
      rw [hnot, if_neg Bool.false_ne_true, Option.map_eq_some_iff] at hi
      obtain ⟨j, hj, rfl⟩ := hi
      rw [List.modify_succ_cons, ih hxs hj, replaceMask, replaceMask, List.map_cons,
        if_neg fun hxm => heq hxm.symm]

theorem Ascending.length_filter (h : Ascending ms) {mask : UInt64}
    (hin : ∃ x ∈ ms, mask = x.pmMask) :
    (ms.filter (mask ≠ ·.pmMask)).length + 1 = ms.length := by
  induction ms with
  | nil => simp at hin
  | cons x xs ih =>
    obtain ⟨hx, hxs⟩ := List.pairwise_cons.mp h
    by_cases heq : mask = x.pmMask
    · have hrest : xs.filter (mask ≠ ·.pmMask) = xs := by
        refine List.filter_eq_self.mpr fun y hy => decide_eq_true ?_
        exact fun hym => UInt64.ne_of_lt (hx y hy) (heq.symm.trans hym)
      rw [List.filter_cons_of_neg (by simpa using heq), hrest, List.length_cons]
    · obtain ⟨y, hy, hym⟩ := hin
      have hyx : y ≠ x := fun he => heq (he ▸ hym)
      rw [List.filter_cons_of_pos (by simpa using heq), List.length_cons, List.length_cons,
        ih hxs ⟨y, List.mem_of_ne_of_mem hyx hy, hym⟩]

end Masks

/-- The heap holds the table: the allocated nodes are those of the trie, one for each key with
masks. -/
structure PatHeap.Holds (s : PatHeap α δ) (head : α) (T : PatTable δ) : Prop where
  shape : ∃ side, s.Trie head side ∧ ∀ a, a ∈ (patTree head side).nodes ↔ s.node a ≠ none
  entry : ∀ a c, s.node a = some c → c.pM = some (T.masks c.pKey) ∧
    c.pMlen.toNat = (T.masks c.pKey).length ∧ T.masks c.pKey ≠ []
  complete : ∀ k, T.masks k ≠ [] → ∃ a c, s.node a = some c ∧ c.pKey = k
  freed : s.freed = T.freed
  ascending : ∀ k, Ascending (T.masks k)
  masks : ∀ k, ∀ m ∈ T.masks k, m.pmMask.toNat < 2 ^ 32 ∧ k &&& m.pmMask = k

/-- No key that both heaps have has moved down. -/
def PatHeap.Lifts (s s' : PatHeap α δ) : Prop :=
  ∀ a b, s'.node a ≠ none → s.node b ≠ none → s'.key a = s.key b → s'.pos a ≤ s.pos b

section Holds

variable {s : PatHeap α δ} {head : α} {T : PatTable δ}

/-- Nodes with keys of their own keep them and their positions. -/
theorem PatHeap.Trie.lifts {side : Bool → BackTree α} (h : s.Trie head side)
    (hnodes : ∀ a, a ∈ (patTree head side).nodes ↔ s.node a ≠ none) {s' : PatHeap α δ}
    (hsame : ∀ a b, s'.node a ≠ none → s.node b ≠ none → s'.key a = s.key b →
      s.node a ≠ none ∧ s'.key a = s.key a ∧ s'.pos a = s.pos a) : s.Lifts s' := by
  intro a b ha hb hkey
  obtain ⟨hlive, hkeyA, hpos⟩ := hsame a b ha hb hkey
  have hab : a = b :=
    h.key_inj ((hnodes a).mpr hlive) ((hnodes b).mpr hb) (hkeyA.symm.trans hkey)
  rw [hpos, hab]

theorem PatHeap.Holds.lifts_self (h : s.Holds head T) : s.Lifts s := by
  obtain ⟨side, hshape, hnodes⟩ := h.shape
  exact hshape.lifts hnodes fun a b ha hb hkey => ⟨ha, rfl, rfl⟩

theorem PatHeap.Holds.masks_ok (h : s.Holds head T) {a : α} {c : Ptree α δ}
    (hc : s.node a = some c) : c.masks = .ok (T.masks c.pKey) := by
  obtain ⟨hM, hlen, _⟩ := h.entry a c hc
  rw [Ptree.masks, hM]
  show (if _ then _ else _) = _
  rw [hlen, if_pos (Nat.le_refl _), List.take_length]

theorem PatHeap.Holds.firstMask_ok (h : s.Holds head T) {a : α} {c : Ptree α δ}
    (hc : s.node a = some c) :
    ∃ m ms, T.masks c.pKey = m :: ms ∧ c.firstMask = .ok m := by
  obtain ⟨hM, _, hne⟩ := h.entry a c hc
  obtain ⟨m, ms, hms⟩ := List.exists_cons_of_ne_nil hne
  refine ⟨m, ms, hms, ?_⟩
  rw [Ptree.firstMask, hM, hms]

/-- The key at which the walk for `key` ends is `key` exactly when the table has it. -/
theorem PatHeap.Holds.stored_iff (h : s.Holds head T) {side : Bool → BackTree α}
    (hshape : s.Trie head side) (hnodes : ∀ a, a ∈ (patTree head side).nodes ↔ s.node a ≠ none)
    (key : UInt64) : s.key ((patTree head side).closest (s.go key)) = key ↔ T.masks key ≠ [] := by
  rw [hshape.stored_iff]
  constructor
  · rintro ⟨a, ha, rfl⟩
    obtain ⟨c, hc⟩ := hshape.exists_node ha
    rw [PatHeap.key_eq hc]
    exact (h.entry a c hc).2.2
  · intro hne
    obtain ⟨a, c, hc, rfl⟩ := h.complete key hne
    exact ⟨a, (hnodes a).mpr (by simp [hc]), PatHeap.key_eq hc⟩

section Replaced

variable {p t : α} {s' : PatHeap α δ}

/-- Each node that is left shows an entry that an old one had. -/
theorem PatHeap.Replaced.source (h : s.Replaced p t s') {a : α} {c' : Ptree α δ}
    (hc' : s'.node a = some c') :
    ∃ b c, s.node b = some c ∧ b ≠ t ∧
      c'.pKey = c.pKey ∧ c'.pM = c.pM ∧ c'.pMlen = c.pMlen := by
  have hap : a ≠ p := by
    rintro rfl
    rw [h.gone] at hc'
    cases hc'
  by_cases hat : a = t
  · subst hat
    obtain ⟨cp, ct', c, hcp, _, hc, hdata⟩ := h.taken hap
    obtain rfl := Option.some.inj (hc.symm.trans hc')
    simp only [Ptree.data, Prod.mk.injEq] at hdata
    exact ⟨p, cp, hcp, Ne.symm hap, hdata.1, hdata.2.1, hdata.2.2.1⟩
  · have hmap := h.others a hap hat
    rw [hc', Option.map_some] at hmap
    obtain ⟨c, hc, hdata⟩ := Option.map_eq_some_iff.mp hmap.symm
    simp only [Ptree.data, Prod.mk.injEq] at hdata
    exact ⟨a, c, hc, hat, hdata.1.symm, hdata.2.1.symm, hdata.2.2.1.symm⟩

/-- Every key but that of `t` is still there. -/
theorem PatHeap.Replaced.kept (h : s.Replaced p t s') {a : α} {c : Ptree α δ}
    (hc : s.node a = some c) (hat : a ≠ t) :
    ∃ b c', s'.node b = some c' ∧ c'.pKey = c.pKey := by
  by_cases hap : a = p
  · subst hap
    obtain ⟨cp, _, c', hcp, _, hc', hdata⟩ := h.taken (Ne.symm hat)
    obtain rfl := Option.some.inj (hc.symm.trans hcp)
    exact ⟨t, c', hc', congrArg (fun d => d.1) hdata⟩
  · have hmap := h.others a hap hat
    rw [hc, Option.map_some] at hmap
    obtain ⟨c', hc', hdata⟩ := Option.map_eq_some_iff.mp hmap
    exact ⟨a, c', hc', congrArg (fun d => d.1) hdata⟩

theorem PatHeap.Replaced.live (h : s.Replaced p t s') {a : α} (ht : s.node t ≠ none)
    (ha : s'.node a ≠ none) :
    a ≠ p ∧ s.node a ≠ none := by
  have hap : a ≠ p := by
    rintro rfl
    exact ha h.gone
  refine ⟨hap, fun hnone => ?_⟩
  by_cases hat : a = t
  · exact ht (hat ▸ hnone)
  · have hmap := h.others a hap hat
    rw [hnone, Option.map_none, Option.map_eq_none_iff] at hmap
    exact ha hmap

/-- The key of `p` moved to `t`, which is not below it, and no other key moved. -/
theorem PatHeap.Replaced.lifts (h : s.Replaced p t s') {side : Bool → BackTree α}
    (hshape : s.Trie head side)
    (hnodes : ∀ a, a ∈ (patTree head side).nodes ↔ s.node a ≠ none) (ht : s.node t ≠ none)
    (hp : s.node p ≠ none) (hle : s.pos t ≤ s.pos p) : s.Lifts s' := by
  intro a b ha hb hkey
  obtain ⟨hap, hlive⟩ := h.live ht ha
  rw [h.pos hap]
  by_cases hat : a = t
  · rw [hat, h.key_self (hat ▸ hap)] at hkey
    rwa [hat, ← hshape.key_inj ((hnodes p).mpr hp) ((hnodes b).mpr hb) hkey]
  · rw [h.key_of_ne hap hat] at hkey
    rw [hshape.key_inj ((hnodes a).mpr hlive) ((hnodes b).mpr hb) hkey]

end Replaced

variable [DecidableEq α]

/-- Other masks for a key that the trie has. -/
theorem PatHeap.Holds.setMasks (h : s.Holds head T) {t : α} {c : Ptree α δ} (hc : s.node t = some c)
    (ms : List (PtreeMask δ)) (mlen : UInt8) {s' : PatHeap α δ}
    (hnode : s'.node = Function.update s.node t (some { c with pM := some ms, pMlen := mlen }))
    (hfreed : s'.freed = s.freed) (hlen : mlen.toNat = ms.length) (hne : ms ≠ [])
    (hascending : Ascending ms)
    (hmasks : ∀ m ∈ ms, m.pmMask.toNat < 2 ^ 32 ∧ c.pKey &&& m.pmMask = c.pKey) :
    s'.Holds head { T with masks := Function.update T.masks c.pKey ms } ∧ s.Lifts s' := by
  have hself : s'.node t = some { c with pM := some ms, pMlen := mlen } := by
    rw [hnode, Function.update_self]
  have hothers : ∀ a, a ≠ t → s'.node a = s.node a := fun a ha => by
    rw [hnode, Function.update_of_ne ha]
  obtain ⟨side, hshape, hnodes⟩ := h.shape
  refine ⟨⟨⟨side, hshape.congr fun a ha d hd => ?_, fun a => ?_⟩, fun a d hd => ?_,
    fun k hk => ?_, hfreed.trans h.freed, ?_, ?_⟩, hshape.lifts hnodes fun a b ha _ _ => ?_⟩
  · by_cases hat : a = t
    · subst hat
      obtain rfl := Option.some.inj (hc.symm.trans hd)
      exact ⟨_, hself, rfl, rfl, rfl⟩
    · exact ⟨d, (hothers a hat).trans hd, rfl, rfl, rfl⟩
  · by_cases hat : a = t
    · subst hat
      rw [hnodes, hself, hc]
      simp
    · rw [hnodes, hothers a hat]
  · by_cases hat : a = t
    · subst hat
      obtain rfl := Option.some.inj (hself.symm.trans hd)
      simp only [Function.update_self]
      exact ⟨trivial, hlen, hne⟩
    · rw [hothers a hat] at hd
      have hkey : d.pKey ≠ c.pKey := by
        intro heq
        have ha : a ∈ (patTree head side).nodes := (hnodes a).mpr (by simp [hd])
        have ht : t ∈ (patTree head side).nodes := (hnodes t).mpr (by simp [hc])
        exact hat (hshape.key_inj ha ht (by rw [PatHeap.key_eq hd, PatHeap.key_eq hc, heq]))
      simp only [Function.update_of_ne hkey]
      exact h.entry a d hd
  · by_cases hkc : k = c.pKey
    · exact ⟨t, _, hself, hkc.symm⟩
    · simp only [Function.update_of_ne hkc] at hk
      obtain ⟨a, d, hd, hdk⟩ := h.complete k hk
      have hat : a ≠ t := by
        rintro rfl
        obtain rfl := Option.some.inj (hc.symm.trans hd)
        exact hkc hdk.symm
      exact ⟨a, d, (hothers a hat).trans hd, hdk⟩
  · exact (Function.forall_update_iff T.masks fun _ l => Ascending l).mpr
      ⟨hascending, fun k _ => h.ascending k⟩
  · exact (Function.forall_update_iff T.masks fun k l =>
      ∀ m ∈ l, m.pmMask.toNat < 2 ^ 32 ∧ k &&& m.pmMask = k).mpr ⟨hmasks, fun k _ => h.masks k⟩
  · by_cases hat : a = t
    · subst hat
      rw [PatHeap.key_eq hself, PatHeap.key_eq hc, PatHeap.pos_eq hself, PatHeap.pos_eq hc, hc]
      simp
    · rw [hothers a hat] at ha
      rw [PatHeap.key, PatHeap.pos, hothers a hat]
      exact ⟨ha, rfl, rfl⟩

theorem PatHeap.free_store {q : α} (hq : s.node q = none) (c : Ptree α δ) :
    (s.store q c).free q = s := by
  cases s with
  | mk node freed =>
    rw [PatHeap.free, PatHeap.store, Function.update_idem]
    exact congrArg (fun f => PatHeap.mk f freed) ((Function.update_eq_self_iff).mpr hq.symm)

/-- The node that was handed in is gone in the end, and only `t` has changed. -/
theorem PatHeap.node_store_free {n t : α} (hn : s.node n = none) (htn : t ≠ n) (cn c : Ptree α δ) :
    (((s.store n cn).store t c).free n).node = Function.update s.node t (some c) := by
  funext a
  by_cases han : a = n
  · rw [han, PatHeap.node_free_self, Function.update_of_ne (Ne.symm htn), hn]
  · rw [PatHeap.node_free_ne _ han]
    by_cases hat : a = t
    · rw [hat, PatHeap.node_store_self, Function.update_self]
    · rw [PatHeap.node_store_ne _ _ hat, PatHeap.node_store_ne _ _ han, Function.update_of_ne hat]

/-- A mask that the key has gets other data. -/
theorem PatHeap.Holds.maskReplaced (h : s.Holds head T) {t : α} {c : Ptree α δ}
    (hc : s.node t = some c) {m : PtreeMask δ} (hm : m.pmMask.toNat < 2 ^ 32)
    (hkey : c.pKey &&& m.pmMask = c.pKey) {s' : PatHeap α δ}
    (hnode : s'.node = Function.update s.node t
      (some { c with pM := some (replaceMask m (T.masks c.pKey)) }))
    (hfreed : s'.freed = s.freed) :
    s'.Holds head { T with
      masks := Function.update T.masks c.pKey (replaceMask m (T.masks c.pKey)) } ∧ s.Lifts s' := by
  obtain ⟨_, hlen, hne⟩ := h.entry t c hc
  refine h.setMasks hc (replaceMask m (T.masks c.pKey)) c.pMlen hnode hfreed ?_ ?_
    (h.ascending c.pKey).replaced fun x hx => ?_
  · rw [replaceMask, List.length_map]
    exact hlen
  · simpa [replaceMask] using hne
  · obtain ⟨y, hy, rfl⟩ := List.mem_map.mp hx
    split
    next => exact ⟨hm, hkey⟩
    next => exact h.masks c.pKey y hy

/-- The key gets one mask more. -/
theorem PatHeap.Holds.maskInserted (h : s.Holds head T) {t : α} {c : Ptree α δ}
    (hc : s.node t = some c) {m : PtreeMask δ} (hm : m.pmMask.toNat < 2 ^ 32)
    (hkey : c.pKey &&& m.pmMask = c.pKey) (hroom : (T.masks c.pKey).length < 255)
    (hnew : ∀ x ∈ T.masks c.pKey, x.pmMask ≠ m.pmMask) :
    (s.store t { c with
      pMlen := c.pMlen + 1
      pM := some (insertMask m (T.masks c.pKey)) }).Holds head { T with
        masks := Function.update T.masks c.pKey (insertMask m (T.masks c.pKey)) } ∧
      s.Lifts (s.store t { c with
        pMlen := c.pMlen + 1
        pM := some (insertMask m (T.masks c.pKey)) }) := by
  obtain ⟨_, hlen, _⟩ := h.entry t c hc
  refine h.setMasks hc _ (c.pMlen + 1) rfl rfl ?_ ?_ ((h.ascending c.pKey).inserted hnew)
    fun x hx => ?_
  · rw [insertMask, List.orderedInsert_length, UInt8.toNat_add, hlen]
    exact Nat.mod_eq_of_lt (by simpa using Nat.succ_lt_succ hroom)
  · intro hnil
    have hlength := List.orderedInsert_length
      (fun x y : PtreeMask δ => x.pmMask ≤ y.pmMask) (T.masks c.pKey) m
    rw [← insertMask, hnil] at hlength
    cases hlength
  · rcases (List.mem_orderedInsert _).mp hx with rfl | hx
    · exact ⟨hm, hkey⟩
    · exact h.masks c.pKey x hx

/-- `pat_insert` for a key that the trie has. -/
theorem addMask_ok (h : s.Holds head T) {t n : α} {c : Ptree α δ} (hc : s.node t = some c)
    (hn : s.node n = none) (cn : Ptree α δ) {m : PtreeMask δ} (hm : m.pmMask.toNat < 2 ^ 32)
    (hkey : c.pKey &&& m.pmMask = c.pKey) (hroom : (T.masks c.pKey).length < 255) :
    match T.insert c.pKey m with
    | .error e => addMask (s.store n cn) n t m = .error e
    | .ok T' => ∃ s', addMask (s.store n cn) n t m = .ok s' ∧ (s'.Holds head T' ∧ s.Lifts s') ∧
        s'.node t ≠ none ∧ s'.key t = c.pKey := by
  have htn : t ≠ n := by
    rintro rfl
    rw [hc] at hn
    cases hn
  obtain ⟨hM, _, hne⟩ := h.entry t c hc
  have hload : (s.store n cn).load t = .ok c :=
    PatHeap.load_ok ((PatHeap.node_store_ne _ _ htn).trans hc)
  rw [PatTable.insert, hkey]
  simp only [List.isEmpty_iff, if_neg hne]
  rw [addMask, hload, StepRun.ok_bind, h.masks_ok hc, StepRun.ok_bind]
  cases hidx : (T.masks c.pKey).findIdx? fun x => m.pmMask = x.pmMask with
  | some i =>
    have hdup : ∃ x ∈ T.masks c.pKey, x.pmMask = m.pmMask := by
      obtain ⟨hi, heq, _⟩ := List.findIdx?_eq_some_iff_getElem.mp hidx
      exact ⟨_, List.getElem_mem hi, (of_decide_eq_true heq).symm⟩
    rw [if_pos hdup]
    have hnode := PatHeap.node_store_free hn htn cn
      { c with pM := some (replaceMask m (T.masks c.pKey)) }
    have hpM : (c.pM.map fun ms => ms.modify i fun x => { x with pmData := m.pmData }) =
        some (replaceMask m (T.masks c.pKey)) := by
      rw [hM, Option.map_some, (h.ascending c.pKey).modify hidx]
    refine ⟨_, rfl, ?_, ?_, ?_⟩
    · refine h.maskReplaced hc hm hkey ?_ rfl
      rw [hpM, hnode]
    · rw [hpM, hnode, Function.update_self]
      simp
    · rw [PatHeap.key, hpM, hnode, Function.update_self]
  | none =>
    have hnew : ∀ x ∈ T.masks c.pKey, x.pmMask ≠ m.pmMask := by
      intro x hx heq
      have hfalse := List.findIdx?_eq_none_iff.mp hidx x hx
      simp [heq] at hfalse
    have hnot : ¬∃ x ∈ T.masks c.pKey, x.pmMask = m.pmMask := by
      rintro ⟨x, hx, heq⟩
      exact hnew x hx heq
    rw [if_neg hnot, mergeMasks_cases (fun x hx => (h.masks c.pKey x hx).1) hm hnew]
    by_cases hhost : ∃ x ∈ T.masks c.pKey, x.pmMask = 0xffffffff
    · rw [if_pos hhost, if_pos hhost]
      rfl
    · rw [if_neg hhost, if_neg hhost, StepRun.ok_bind, PatHeap.free_store hn]
      refine ⟨_, ?_, h.maskInserted hc hm hkey hroom hnew, ?_, ?_⟩
      · show (s.load t >>= _) = _
        rw [PatHeap.load_ok hc]
        rfl
      · rw [PatHeap.node_store_self]
        simp
      · rw [PatHeap.key_eq (PatHeap.node_store_self ..)]

/-- A new node has become part of the trie. -/
theorem PatHeap.Holds.addNode (h : s.Holds head T) {side side' : Bool → BackTree α}
    (hold : s.Trie head side)
    (hnodes : ∀ a, a ∈ (patTree head side).nodes ↔ s.node a ≠ none) {x : α} {cn : Ptree α δ}
    {m : PtreeMask δ} (hx : s.node x = none) (hM : cn.pM = some [m]) (hlen : cn.pMlen = 1)
    (hnone : T.masks cn.pKey = []) {s' : PatHeap α δ} {d : Int} (hshape : s'.Trie head side')
    (hperm : (patTree head side').nodes.Perm (x :: (patTree head side).nodes))
    (hdata : ((s.store x cn).place x cn d).SameData s') (hfreed : s'.freed = s.freed)
    (hm : m.pmMask.toNat < 2 ^ 32) (hkey : cn.pKey &&& m.pmMask = cn.pKey) :
    s'.Holds head { T with masks := Function.update T.masks cn.pKey [m] } ∧ s.Lifts s' := by
  have hnew : ∃ c, s'.node x = some c ∧ c.pKey = cn.pKey ∧ c.pM = cn.pM ∧ c.pMlen = cn.pMlen := by
    obtain ⟨c, hc, hcdata⟩ := hdata.node (a := x) (PatHeap.node_store_self ..)
    simp only [Ptree.data, Prod.mk.injEq] at hcdata
    exact ⟨c, hc, hcdata.1, hcdata.2.1, hcdata.2.2.1⟩
  obtain ⟨cx, hcx, hcxKey, hcxM, hcxLen⟩ := hnew
  have hothers : ∀ a, a ≠ x → (s'.node a).map Ptree.data = (s.node a).map Ptree.data := by
    intro a ha
    rw [hdata a, PatHeap.place, PatHeap.node_store_ne _ _ ha, PatHeap.node_store_ne _ _ ha]
  refine ⟨⟨⟨side', hshape, fun a => ?_⟩, fun a c hc => ?_, fun k hk => ?_, hfreed.trans h.freed,
    ?_, ?_⟩, hold.lifts hnodes fun a b ha hb hsame => ?_⟩
  · rw [hperm.mem_iff, List.mem_cons, hnodes]
    by_cases ha : a = x
    · simp [ha, hcx]
    · have hiff : s'.node a = none ↔ s.node a = none := by
        have hmap := hothers a ha
        rw [← Option.map_eq_none_iff (f := Ptree.data), hmap, Option.map_eq_none_iff]
      simp [ha, hiff]
  · by_cases ha : a = x
    · subst ha
      obtain rfl := Option.some.inj (hcx.symm.trans hc)
      simp only [hcxKey, Function.update_self, hcxM, hcxLen, hM, hlen]
      exact ⟨trivial, rfl, List.cons_ne_nil m []⟩
    · have hmap := hothers a ha
      rw [hc, Option.map_some] at hmap
      obtain ⟨c₀, hc₀, hdata₀⟩ := Option.map_eq_some_iff.mp hmap.symm
      simp only [Ptree.data, Prod.mk.injEq] at hdata₀
      have hentry := h.entry a c₀ hc₀
      have hkey' : c.pKey ≠ cn.pKey := by
        intro heq
        rw [hdata₀.1, heq] at hentry
        exact hentry.2.2 hnone
      simp only [Function.update_of_ne hkey']
      rw [← hdata₀.1, ← hdata₀.2.1, ← hdata₀.2.2.1]
      exact hentry
  · by_cases hkc : k = cn.pKey
    · exact ⟨x, cx, hcx, hcxKey.trans hkc.symm⟩
    · simp only [Function.update_of_ne hkc] at hk
      obtain ⟨a, c, hc, hck⟩ := h.complete k hk
      have ha : a ≠ x := by
        rintro rfl
        rw [hx] at hc
        cases hc
      have hmap := hothers a ha
      rw [hc, Option.map_some] at hmap
      obtain ⟨c', hc', hdata'⟩ := Option.map_eq_some_iff.mp hmap
      simp only [Ptree.data, Prod.mk.injEq] at hdata'
      exact ⟨a, c', hc', hdata'.1.trans hck⟩
  · exact (Function.forall_update_iff T.masks fun _ l => Ascending l).mpr
      ⟨List.pairwise_singleton _ _, fun k _ => h.ascending k⟩
  · refine (Function.forall_update_iff T.masks fun k l =>
      ∀ m ∈ l, m.pmMask.toNat < 2 ^ 32 ∧ k &&& m.pmMask = k).mpr
        ⟨fun y hy => ?_, fun k _ => h.masks k⟩
    rw [List.mem_singleton.mp hy]
    exact ⟨hm, hkey⟩
  · by_cases hax : a = x
    · obtain ⟨c, hc⟩ := Option.ne_none_iff_exists'.mp hb
      rw [hax, PatHeap.key_eq hcx, hcxKey, PatHeap.key_eq hc] at hsame
      rw [hsame] at hnone
      exact absurd hnone (h.entry b c hc).2.2
    · have hdata := hothers a hax
      refine ⟨fun hlost => ha ?_, PatHeap.key_pos_congr hdata⟩
      rwa [hlost, Option.map_none, Option.map_eq_none_iff] at hdata

omit [DecidableEq α] in
theorem and_masked (key mask : UInt64) : key &&& mask &&& mask = key &&& mask := by
  rw [UInt64.and_assoc, UInt64.and_self]

omit [DecidableEq α] in
theorem and_lt {key mask : UInt64} (hmask : mask.toNat < 2 ^ 32) :
    (key &&& mask).toNat < 2 ^ 32 := by
  rw [UInt64.toNat_and]
  exact Nat.lt_of_le_of_lt Nat.and_le_right hmask

omit [DecidableEq α] in
/-- A node outside the trie does not matter. -/
theorem PatHeap.Trie.store_outside [DecidableEq α] {side : Bool → BackTree α}
    (h : s.Trie head side) {x : α} (hx : x ∉ (patTree head side).nodes) (c : Ptree α δ) :
    (s.store x c).Trie head side :=
  h.congr fun a ha c' hc' =>
    ⟨c', (PatHeap.node_store_ne _ _ fun heq : a = x => hx (heq ▸ ha)).trans hc', rfl, rfl, rfl⟩

/-- A walk does not see a node that is handed in. -/
theorem closest_outside {u : BackTree α} {q : α} (hq : q ∉ u.nodes) (c : Ptree α δ)
    (key : UInt64) : u.closest ((s.store q c).go key) = u.closest (s.go key) := by
  refine closest_congr fun a ha => ?_
  have haq : a ≠ q := fun heq => hq (heq ▸ ha)
  rw [PatHeap.go, PatHeap.go, PatHeap.pos, PatHeap.pos, PatHeap.node_store_ne _ _ haq]

/-- The node is handed in with its key masked. -/
theorem patInsert_eq (s : PatHeap α δ) (x head : α) (key : UInt64) (m : PtreeMask δ) :
    patInsert (s.store x (patNode key m.pmMask m.pmData)) (some x) (some head) =
      insertMasked (s.store x (patNode (key &&& m.pmMask) m.pmMask m.pmData)) x head
        (key &&& m.pmMask) m := by
  have hstore : (s.store x (patNode key m.pmMask m.pmData)).store x
      { patNode key m.pmMask m.pmData with pKey := key &&& m.pmMask } =
        s.store x (patNode (key &&& m.pmMask) m.pmMask m.pmData) := by
    rw [PatHeap.store, PatHeap.store, Function.update_idem]
    rfl
  rw [patInsert, PatHeap.load_ok (PatHeap.node_store_self ..), StepRun.ok_bind]
  show insertMasked ((s.store x (patNode key m.pmMask m.pmData)).store x
    { patNode key m.pmMask m.pmData with pKey := key &&& m.pmMask }) x head
      (key &&& m.pmMask) m = _
  rw [hstore]

/-- What `pat_insert` does once its walk has come to the node `t`. -/
theorem insertMasked_eq {side : Bool → BackTree α} (h : s.Trie head side) {k : UInt64}
    (hk : k.toNat < 2 ^ 32) {t : α} {ct : Ptree α δ} (ht : (patTree head side).closest (s.go k) = t)
    (hct : s.node t = some ct) (x : α) (m : PtreeMask δ) : insertMasked s x head k m =
      if k = ct.pKey then addMask s x t m >>= fun s' => .ok (some t, s')
      else insertNode s x head k ct.pKey >>= fun s' => .ok (some x, s') := by
  rw [insertMasked, h.descend hk (v := fun _ _ => ()) (fun _ _ _ => rfl), StepRun.ok_bind, ht]
  show (s.load t >>= _) = _
  rw [PatHeap.load_ok hct]
  rfl

/-- `pat_insert` for a key that the trie does not have. -/
theorem insertNode_holds (h : s.Holds head T) {side : Bool → BackTree α}
    (hshape : s.Trie head side) (hnodes : ∀ a, a ∈ (patTree head side).nodes ↔ s.node a ≠ none)
    {x : α} (hx : s.node x = none) {k : UInt64} (hk : k.toNat < 2 ^ 32) {m : PtreeMask δ}
    (hm : m.pmMask.toNat < 2 ^ 32) (hkm : k &&& m.pmMask = k) (hnone : T.masks k = [])
    {s₁ : PatHeap α δ} (hs₁ : s.store x (patNode k m.pmMask m.pmData) = s₁) {t : α} {ct : Ptree α δ}
    (ht : (patTree head side).closest (s₁.go k) = t) (hct : s₁.node t = some ct)
    (hne : ct.pKey ≠ k) :
    match T.insert k m with
    | .error e => insertNode s₁ x head k ct.pKey = .error e
    | .ok T' => ∃ s', insertNode s₁ x head k ct.pKey = .ok s' ∧ (s'.Holds head T' ∧ s.Lifts s') ∧
        s'.node x ≠ none ∧ s'.key x = k := by
  have hfresh : x ∉ (patTree head side).nodes := fun hin => (hnodes x).mp hin hx
  have hx₁ : s₁.node x = some (patNode k m.pmMask m.pmData) := hs₁ ▸ PatHeap.node_store_self ..
  have hT : T.insert k m = if k = 0x80000000 then .error (.shift 32)
      else .ok { T with masks := Function.update T.masks k [m] } := by
    rw [PatTable.insert, hkm, hnone]
    rfl
  have hcases := insertNode_cases (hs₁ ▸ hshape.store_outside hfresh _) hx₁ hfresh hk
  rw [show (patNode k m.pmMask m.pmData).pKey = k from rfl, ht, PatHeap.key_eq hct] at hcases
  rw [hT]
  rcases hcases hne with ⟨heq, hfault⟩ | ⟨hnot, s', u, d, hs', hshape', hperm, hdata, hfreed⟩
  · rw [if_pos heq]
    exact hfault
  · rw [if_neg hnot]
    have hall := nodes_update_perm head [] [x] hperm
    have hlive : x ∈ (patTree head (Function.update side (keyBit k 0) u)).nodes :=
      hall.mem_iff.mpr List.mem_cons_self
    obtain ⟨cx, hcx⟩ := hshape'.exists_node hlive
    subst hs₁
    refine ⟨s', hs', ?_, by simp [hcx], ?_⟩
    · exact h.addNode hshape hnodes (m := m) hx rfl rfl hnone hshape' hall hdata hfreed hm hkm
    · rw [hdata.key, PatHeap.place, PatHeap.key_eq (PatHeap.node_store_self ..)]
      rfl

/-- `pat_insert` is the insertion into the table. -/
theorem patInsert_ok (h : s.Holds head T) {x : α} (hx : s.node x = none) {key : UInt64}
    {m : PtreeMask δ} (hm : m.pmMask.toNat < 2 ^ 32)
    (hroom : (T.masks (key &&& m.pmMask)).length < 255) :
    match T.insert key m with
    | .error e =>
      patInsert (s.store x (patNode key m.pmMask m.pmData)) (some x) (some head) = .error e
    | .ok T' => ∃ s' a,
      patInsert (s.store x (patNode key m.pmMask m.pmData)) (some x) (some head) =
        .ok (some a, s') ∧
      (s'.Holds head T' ∧ s.Lifts s') ∧ s'.node a ≠ none ∧ s'.key a = key &&& m.pmMask := by
  obtain ⟨side, hshape, hnodes⟩ := h.shape
  have hfresh : x ∉ (patTree head side).nodes := fun hin => (hnodes x).mp hin hx
  have hkm : key &&& m.pmMask &&& m.pmMask = key &&& m.pmMask := and_masked ..
  have hinsert : T.insert key m = T.insert (key &&& m.pmMask) m := by
    rw [PatTable.insert, PatTable.insert, hkm]
  have hk : (key &&& m.pmMask).toNat < 2 ^ 32 := and_lt hm
  rw [patInsert_eq, hinsert]
  generalize key &&& m.pmMask = k at *
  generalize hs₁ : s.store x (patNode k m.pmMask m.pmData) = s₁
  have hgo : (patTree head side).closest (s₁.go k) = (patTree head side).closest (s.go k) :=
    hs₁ ▸ closest_outside hfresh _ k
  have hmem := hshape.closest_mem k
  have hstored := h.stored_iff hshape hnodes k
  generalize (patTree head side).closest (s.go k) = t at *
  obtain ⟨ct, hct⟩ := hshape.exists_node hmem
  have htx : t ≠ x := fun heq => hfresh (heq ▸ hmem)
  have hct₁ : s₁.node t = some ct := hs₁ ▸ (PatHeap.node_store_ne _ _ htx).trans hct
  rw [PatHeap.key_eq hct] at hstored
  rw [insertMasked_eq (hs₁ ▸ hshape.store_outside hfresh _) hk hgo hct₁]
  by_cases hkey : k = ct.pKey
  · subst hkey
    rw [if_pos rfl]
    have hadd := addMask_ok h hct hx (patNode ct.pKey m.pmMask m.pmData) hm hkm hroom
    rw [hs₁] at hadd
    cases hT : T.insert ct.pKey m with
    | error e =>
      rw [hT] at hadd
      show (addMask s₁ x t m >>= _) = _
      rw [hadd]
      rfl
    | ok T' =>
      rw [hT] at hadd
      obtain ⟨s', hs', hrest⟩ := hadd
      refine ⟨s', t, ?_, hrest⟩
      rw [hs']
      rfl
  · rw [if_neg hkey]
    have hnone : T.masks k = [] := by
      by_contra hsome
      exact hkey (hstored.mpr hsome).symm
    have hadd := insertNode_holds h hshape hnodes hx hk hm hkm hnone hs₁ hgo hct₁
      fun heq => hkey heq.symm
    cases hT : T.insert k m with
    | error e =>
      rw [hT] at hadd
      show (insertNode s₁ x head k ct.pKey >>= _) = _
      rw [hadd]
      rfl
    | ok T' =>
      rw [hT] at hadd
      obtain ⟨s', hs', hrest⟩ := hadd
      refine ⟨s', x, ?_, hrest⟩
      rw [hs']
      rfl

omit [DecidableEq α] in
/-- A heap whose allocated nodes have the data of another's, but for the node `t`: it has the
contents of `p`, which is gone. -/
theorem PatHeap.Holds.dropNode (h : s.Holds head T) {side side' : Bool → BackTree α}
    (hshape : s.Trie head side) (hnodes : ∀ a, a ∈ (patTree head side).nodes ↔ s.node a ≠ none)
    {t p : α} {ct : Ptree α δ} {m : PtreeMask δ} (hct : s.node t = some ct)
    (hm : T.masks ct.pKey = [m]) (hp : s.node p ≠ none) {s' : PatHeap α δ}
    (hshape' : s'.Trie head side')
    (hperm : (p :: (patTree head side').nodes).Perm (patTree head side).nodes)
    (hreplaced : s.Replaced p t s') (hle : s.pos t ≤ s.pos p)
    (hfreed : s'.freed = s.freed ++ m.pmData.toList) :
    s'.Holds head {
      masks := Function.update T.masks ct.pKey []
      freed := T.freed ++ m.pmData.toList } ∧ s.Lifts s' := by
  have hlive : s.node t ≠ none := by simp [hct]
  have ht : t ∈ (patTree head side).nodes := (hnodes t).mpr hlive
  have hkeys : ∀ a c, s.node a = some c → a ≠ t → c.pKey ≠ ct.pKey := by
    intro a c hc hat heq
    have ha : a ∈ (patTree head side).nodes := (hnodes a).mpr (by simp [hc])
    exact hat (hshape.key_inj ha ht (by rw [PatHeap.key_eq hc, PatHeap.key_eq hct, heq]))
  refine ⟨⟨⟨side', hshape', fun a => ?_⟩, fun a c' hc' => ?_, fun k hk => ?_, ?_, ?_, ?_⟩,
    hreplaced.lifts hshape hnodes hlive hp hle⟩
  · constructor
    · intro ha
      obtain ⟨c, hc⟩ := hshape'.exists_node ha
      simp [hc]
    · intro hleft
      obtain ⟨hap, ha⟩ := hreplaced.live hlive hleft
      exact List.mem_of_ne_of_mem hap (hperm.mem_iff.mpr ((hnodes a).mpr ha))
  · obtain ⟨b, c, hc, hbt, hk, hM, hlen⟩ := hreplaced.source hc'
    have hentry := h.entry b c hc
    rw [hk, hM, hlen]
    simp only [Function.update_of_ne (hkeys b c hc hbt)]
    exact hentry
  · have hkc : k ≠ ct.pKey := by
      rintro rfl
      simp at hk
    simp only [Function.update_of_ne hkc] at hk
    obtain ⟨a, c, hc, rfl⟩ := h.complete k hk
    refine hreplaced.kept hc ?_
    rintro rfl
    obtain rfl := Option.some.inj (hc.symm.trans hct)
    exact hkc rfl
  · rw [hfreed, h.freed]
  · exact (Function.forall_update_iff T.masks fun _ l => Ascending l).mpr
      ⟨List.Pairwise.nil, fun k _ => h.ascending k⟩
  · exact (Function.forall_update_iff T.masks fun k l =>
      ∀ m ∈ l, m.pmMask.toNat < 2 ^ 32 ∧ k &&& m.pmMask = k).mpr
        ⟨by simp, fun k _ => h.masks k⟩

/-- The node that a caller keeps on its stack is no part of a removal. -/
theorem PatHeap.Replaced.free {p t q : α} {c : Ptree α δ} {s' : PatHeap α δ}
    (h : (s.store q c).Replaced p t s') (hq : s.node q = none) (hp : p ≠ q) (ht : t ≠ q) :
    s.Replaced p t (s'.free q) where
  gone := by rw [PatHeap.node_free_ne _ hp, h.gone]
  others := by
    intro a hap hat
    by_cases haq : a = q
    · rw [haq, PatHeap.node_free_self, hq]
    · rw [PatHeap.node_free_ne _ haq, h.others a hap hat, PatHeap.node_store_ne _ _ haq]
  taken := by
    intro htp
    obtain ⟨cp, ct, c', hcp, hct, hc', hdata⟩ := h.taken htp
    rw [PatHeap.node_store_ne _ _ hp] at hcp
    rw [PatHeap.node_store_ne _ _ ht] at hct
    exact ⟨cp, ct, c', hcp, hct, (PatHeap.node_free_ne _ ht).trans hc', hdata⟩

/-- What `pat_remove` does once its walk has come to the node `t`. -/
theorem patRemove_eq {side : Bool → BackTree α} (h : s.Trie head side) {q : α} {key mask : UInt64}
    (hq : s.node q = some (patNode key mask none)) (hkey : key.toNat < 2 ^ 32) {t : α}
    {ct : Ptree α δ} (ht : (patTree head side).closest (s.go key) = t) (hct : s.node t = some ct) :
    patRemove s false (some q) (some head) =
      if ct.pKey ≠ key then .ok (0, s)
      else if ct.pMlen = 1 then
        if ct.pB = 0 then .ok (0, s)
        else ct.firstMask >>= fun mt =>
          if mt.pmMask ≠ mask then .ok (0, s)
          else
            let r := ((patTree head side).path (s.go key)).foldl (fun seen t => (seen.2, t))
              (head, head)
            removeNode s key r.1 r.2 t >>= fun s' => .ok (1, s')
      else removeMask s { pmMask := mask, pmData := none } t := by
  have hrun : patRemove s false (some q) (some head) =
      (descend s key (fun seen t => .ok (seen.2, t)) patSteps (head, head) head >>= fun r =>
        s.load r.2 >>= fun ct =>
          if ct.pKey ≠ key then .ok (0, s)
          else if ct.pMlen = 1 then
            if ct.pB = 0 then .ok (0, s)
            else ct.firstMask >>= fun mt =>
              if mt.pmMask ≠ mask then .ok (0, s)
              else removeNode s key r.1.1 r.1.2 r.2 >>= fun s' => .ok (1, s')
          else removeMask s { pmMask := mask, pmData := none } r.2) := by
    rw [patRemove, PatHeap.load_ok hq]
    rfl
  rw [hrun, h.descend hkey (v := fun seen t => (seen.2, t)) (fun _ _ _ => rfl), StepRun.ok_bind, ht,
    PatHeap.load_ok hct, StepRun.ok_bind]

/-- The only mask of a key: its node goes. -/
theorem removeNode_holds (h : s.Holds head T) {side : Bool → BackTree α} (hshape : s.Trie head side)
    (hnodes : ∀ a, a ∈ (patTree head side).nodes ↔ s.node a ≠ none) {q : α} (hq : s.node q = none)
    (c : Ptree α δ) {b : Bool} {t : α} (ht : t ∈ (side b).nodes) {ct : Ptree α δ}
    (hct : s.node t = some ct) {y : PtreeMask δ} (hms : T.masks ct.pKey = [y]) :
    ∃ pre g p s', (patTree head side).path ((s.store q c).go ct.pKey) = pre ++ [g, p] ∧
      removeNode (s.store q c) ct.pKey g p t = .ok s' ∧
      (s'.free q).Holds head {
        masks := Function.update T.masks ct.pKey []
        freed := T.freed ++ y.pmData.toList } ∧
      s.Lifts (s'.free q) := by
  have hqT : q ∉ (patTree head side).nodes := fun hin => (hnodes q).mp hin hq
  have hne : ∀ a ∈ (patTree head side).nodes, a ≠ q := by
    rintro a ha rfl
    exact hqT ha
  have hsame : ∀ a ∈ (patTree head side).nodes, (s.store q c).node a = s.node a := fun a ha =>
    PatHeap.node_store_ne _ _ (hne a ha)
  have hmem : t ∈ (patTree head side).nodes := mem_nodes_patTree.mpr (Or.inr ⟨b, ht⟩)
  have hct₁ : (s.store q c).node t = some ct := (hsame t hmem).trans hct
  have hfirst : ct.firstMask = .ok y := by rw [Ptree.firstMask, (h.entry t ct hct).1, hms]
  obtain ⟨pre, g, p, u, s', hpath, hrem, hshape', hperm, hreplaced, hle, hfreed⟩ :=
    removeNode_ok (hshape.store_outside hqT c) ht hct₁ hfirst
  rw [PatHeap.key_eq hct₁] at hpath hrem
  have hall := nodes_update_perm head [p] [] hperm
  have hpT : p ∈ (patTree head side).nodes := hall.mem_iff.mp List.mem_cons_self
  refine ⟨pre, g, p, s', hpath, hrem, ?_⟩
  refine h.dropNode hshape hnodes hct hms ((hnodes p).mp hpT) ?_ hall
    (hreplaced.free hq (hne p hpT) (hne t hmem)) ?_ ?_
  · refine hshape'.congr fun a ha d hd => ⟨d, ?_, rfl, rfl, rfl⟩
    have haT := hall.mem_iff.mp (List.mem_cons_of_mem p ha)
    rw [PatHeap.node_free_ne _ (hne a haT), hd]
  · have hpos : ∀ a ∈ (patTree head side).nodes, (s.store q c).pos a = s.pos a := fun a ha => by
      rw [PatHeap.pos, PatHeap.pos, hsame a ha]
    rwa [hpos t hmem, hpos p hpT] at hle
  · rw [PatHeap.freed_free, hfreed, PatHeap.freed_store]

/-- One of several masks of a key: its node stays. -/
theorem removeMask_holds (h : s.Holds head T) {q : α} (hq : s.node q = none) (c : Ptree α δ)
    {t : α} (htq : t ≠ q) {ct : Ptree α δ} (hct : s.node t = some ct) (mask : UInt64)
    {y z : PtreeMask δ} {zs : List (PtreeMask δ)} (hms : T.masks ct.pKey = y :: z :: zs) :
    ∃ s', removeMask (s.store q c) { pmMask := mask, pmData := none } t =
        .ok ((T.remove ct.pKey mask).1, s') ∧
      (s'.free q).Holds head (T.remove ct.pKey mask).2 ∧ s.Lifts (s'.free q) := by
  obtain ⟨_, hlen, _⟩ := h.entry t ct hct
  rw [hms] at hlen
  have hct₁ : (s.store q c).node t = some ct := (PatHeap.node_store_ne _ _ htq).trans hct
  have hmasks : ct.masks = .ok (y :: z :: zs) := by rw [h.masks_ok hct, hms]
  rw [PatTable.remove_many hms, removeMask, PatHeap.load_ok hct₁, StepRun.ok_bind, hmasks,
    StepRun.ok_bind]
  by_cases hall : ∀ x ∈ y :: z :: zs, mask ≠ x.pmMask
  · rw [if_pos hall, if_pos hall]
    exact ⟨s.store q c, rfl, (PatHeap.free_store hq c).symm ▸ ⟨h, h.lifts_self⟩⟩
  · rw [if_neg hall, if_neg hall]
    refine ⟨_, rfl, ?_⟩
    have hin : ∃ x ∈ y :: z :: zs, mask = x.pmMask := by
      by_contra hnone
      exact hall fun x hx heq => hnone ⟨x, hx, heq⟩
    have hasc : Ascending (y :: z :: zs) := hms ▸ h.ascending ct.pKey
    have hlength := hasc.length_filter hin
    refine h.setMasks hct _ (ct.pMlen - 1) ?_ ?_ ?_ ?_ (hasc.filter _) fun x hx => ?_
    · rw [PatHeap.node_store_free hq htq]
    · rw [PatHeap.freed_free, PatHeap.freed_store, PatHeap.freed_store]
    · have hle : (1 : UInt8) ≤ ct.pMlen := by
        rw [UInt8.le_iff_toNat_le, hlen]
        simp
      have hone : (1 : UInt8).toNat = 1 := rfl
      rw [UInt8.toNat_sub_of_le _ _ hle, hlen, hone]
      omega
    · intro hnil
      simp only [hnil] at hlength
      simp at hlength
    · have hxs := List.mem_of_mem_filter hx
      rw [← hms] at hxs
      exact h.masks ct.pKey x hxs

/-- `pat_remove` is the removal from the table, provided that the variable that it reads first does
not happen to hold NULL. -/
theorem patRemove_ok (h : s.Holds head T) {q : α} (hq : s.node q = none) {key : UInt64}
    (hkey : key.toNat < 2 ^ 32) (mask : UInt64) : ∃ s',
      patRemove (s.store q (patNode key mask none)) false (some q) (some head) =
        .ok ((T.remove key mask).1, s') ∧
      (s'.free q).Holds head (T.remove key mask).2 ∧ s.Lifts (s'.free q) := by
  obtain ⟨side, hshape, hnodes⟩ := h.shape
  have hqT : q ∉ (patTree head side).nodes := fun hin => (hnodes q).mp hin hq
  generalize hc : patNode key mask none = c
  have hq₁ : (s.store q c).node q = some (patNode key mask none) :=
    hc ▸ PatHeap.node_store_self ..
  have hgo := closest_outside (s := s) hqT c key
  have hmem := hshape.closest_mem key
  have hstored := h.stored_iff hshape hnodes key
  generalize (patTree head side).closest (s.go key) = t at *
  obtain ⟨ct, hct⟩ := hshape.exists_node hmem
  rw [PatHeap.key_eq hct] at hstored
  have hunchanged : ((s.store q c).free q).Holds head T ∧ s.Lifts ((s.store q c).free q) :=
    (PatHeap.free_store hq c).symm ▸ ⟨h, h.lifts_self⟩
  have htq : t ≠ q := fun heq => hqT (heq ▸ hmem)
  rw [patRemove_eq (hshape.store_outside hqT c) hq₁ hkey hgo
    ((PatHeap.node_store_ne _ _ htq).trans hct)]
  by_cases hkt : ct.pKey = key
  · subst hkt
    rw [if_neg (not_not_intro rfl)]
    obtain ⟨hM, hlen, _⟩ := h.entry t ct hct
    have hhead := hshape.pB_eq_zero_iff hmem hct
    cases hms : T.masks ct.pKey with
    | nil => exact absurd hms (hstored.mp rfl)
    | cons y ys =>
      rw [hms] at hM hlen
      cases ys with
      | nil =>
        have hone : ct.pMlen = 1 := UInt8.toNat_inj.mp hlen
        have hfirst : ct.firstMask = .ok y := by rw [Ptree.firstMask, hM]
        rw [if_pos hone, PatTable.remove_single hms]
        by_cases hdefault : ct.pKey = 0
        · rw [if_pos (hhead.mpr hdefault), if_pos (Or.inl hdefault)]
          exact ⟨_, rfl, hunchanged⟩
        · rw [if_neg fun hB => hdefault (hhead.mp hB), hfirst, StepRun.ok_bind]
          by_cases hmask : y.pmMask = mask
          · rw [if_neg (not_not_intro hmask), if_neg (not_or.mpr ⟨hdefault, not_not_intro hmask⟩)]
            have hside : ∃ b, t ∈ (side b).nodes := by
              refine (mem_nodes_patTree.mp hmem).resolve_left ?_
              rintro rfl
              exact hdefault ((PatHeap.key_eq hct).symm.trans hshape.keyHead)
            obtain ⟨b, hin⟩ := hside
            obtain ⟨pre, g, p, s', hpath, hrem, hrest⟩ :=
              removeNode_holds h hshape hnodes hq c hin hct hms
            refine ⟨s', ?_, hrest⟩
            rw [hpath, List.foldl_append]
            show (removeNode (s.store q c) ct.pKey g p t >>= _) = _
            rw [hrem]
            rfl
          · rw [if_pos hmask, if_pos (Or.inr hmask)]
            exact ⟨_, rfl, hunchanged⟩
      | cons z zs =>
        have hmany : ct.pMlen ≠ 1 := by
          rintro hone
          rw [hone] at hlen
          simp at hlen
        rw [if_neg hmany]
        exact removeMask_holds h hq c htq hct mask hms
  · have hnone : T.masks key = [] := by
      by_contra hsome
      exact hkt (hstored.mpr hsome)
    rw [if_pos hkt, PatTable.remove, hnone]
    exact ⟨_, rfl, hunchanged⟩

end Holds

end LearningSwitch
