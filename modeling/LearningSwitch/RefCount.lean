import Mathlib.Data.List.Nodup
import Mathlib.Logic.Function.Basic

namespace RefCount

variable {ι : Type} [DecidableEq ι]

/-- Of the objects in use, how many refer to `x`: `x` itself, and those attached to it. -/
def refs (target : ι → ι) (users : List ι) (x : ι) : Nat :=
  users.countP fun y => y = x ∨ target y = x

/-- An object is attached only while it is in use, and only to one that is not attached itself. -/
structure Attached (target : ι → ι) (users : List ι) : Prop where
  nodup : users.Nodup
  outside : ∀ x, x ∉ users → target x = x
  flat : ∀ x, target (target x) = target x

variable {target : ι → ι} {users users' : List ι} {m x : ι}

omit [DecidableEq ι] in
theorem Attached.perm (h : Attached target users) (hperm : users.Perm users') :
    Attached target users' :=
  ⟨hperm.nodup_iff.mp h.nodup, fun x hx => h.outside x fun hin => hx (hperm.mem_iff.mp hin), h.flat⟩

theorem refs_perm (hperm : users.Perm users') (x : ι) :
    refs target users x = refs target users' x :=
  hperm.countP_eq _

theorem refs_cons (target : ι → ι) (m : ι) (users : List ι) (x : ι) :
    refs target (m :: users) x = refs target users x + if m = x ∨ target m = x then 1 else 0 := by
  simp [refs, List.countP_cons]

theorem refs_congr {target' : ι → ι} (h : ∀ y ∈ users, target' y = target y) (x : ι) :
    refs target' users x = refs target users x := by
  refine List.countP_congr fun y hy => ?_
  simp [h y hy]

theorem refs_eq_zero_iff :
    refs target users x = 0 ↔ x ∉ users ∧ ∀ y ∈ users, target y ≠ x := by
  rw [refs, List.countP_eq_zero]
  constructor
  · intro h
    refine ⟨fun hx => ?_, fun y hy htarget => ?_⟩
    · exact h x hx (by simp)
    · exact h y hy (by simp [htarget])
  · rintro ⟨hx, hnone⟩ y hy
    have hyx : y ≠ x := fun heq => hx (heq ▸ hy)
    simp [hyx, hnone y hy]

theorem refs_erase (target : ι → ι) (hm : m ∈ users) (x : ι) : refs target users x =
    refs target (users.erase m) x + if m = x ∨ target m = x then 1 else 0 := by
  rw [← refs_cons]
  exact refs_perm (List.perm_cons_erase hm) x

/-- An attached object has no reference but its own. -/
theorem Attached.refs_attached (h : Attached target users) (hm : m ∈ users)
    (hattached : target m ≠ m) : refs target users m = 1 := by
  have hzero : refs target (users.erase m) m = 0 := by
    refine refs_eq_zero_iff.mpr ⟨h.nodup.not_mem_erase, fun y _ hy => hattached ?_⟩
    rw [← hy]
    exact h.flat y
  rw [refs_erase target hm, hzero]
  simp

/-- A new object, referred to by none. -/
theorem Attached.alloc (h : Attached target users) (hm : refs target users m = 0) :
    Attached target (m :: users) ∧
      ∀ x, refs target (m :: users) x = refs target users x + if m = x then 1 else 0 := by
  obtain ⟨hfresh, _⟩ := refs_eq_zero_iff.mp hm
  refine ⟨⟨List.nodup_cons.mpr ⟨hfresh, h.nodup⟩, fun x hx => ?_, h.flat⟩, fun x => ?_⟩
  · exact h.outside x fun hin => hx (List.mem_cons_of_mem m hin)
  · simp only [refs_cons, h.outside m hfresh, or_self]

/-- An object in use without other references is attached to `d`. -/
theorem Attached.attach (h : Attached target users) {d : ι} (hm : m ∈ users)
    (hself : target m = m) (halone : refs target users m = 1) (hd : target d = d) (hne : d ≠ m) :
    Attached (Function.update target m d) users ∧
      ∀ x, refs (Function.update target m d) users x =
        refs target users x + if x = d then 1 else 0 := by
  have hothers : ∀ y ∈ users.erase m, Function.update target m d y = target y := fun y hy =>
    Function.update_of_ne (List.Nodup.mem_erase_iff h.nodup |>.mp hy).1 _ _
  have hnone : ∀ y, y ≠ m → target y ≠ m := by
    intro y hym hy
    have hyu : y ∈ users := by
      by_contra hout
      exact hym ((h.outside y hout).symm.trans hy)
    have hzero : refs target (users.erase m) m = 0 := by
      have hsum := refs_erase target hm m
      rw [halone] at hsum
      simpa using hsum
    exact (refs_eq_zero_iff.mp hzero).2 y ((List.Nodup.mem_erase_iff h.nodup).mpr ⟨hym, hyu⟩) hy
  refine ⟨⟨h.nodup, fun x hx => ?_, fun x => ?_⟩, fun x => ?_⟩
  · have hxm : x ≠ m := fun heq => hx (heq ▸ hm)
    rw [Function.update_of_ne hxm, h.outside x hx]
  · by_cases hxm : x = m
    · rw [hxm, Function.update_self, Function.update_of_ne hne, hd]
    · rw [Function.update_of_ne hxm, Function.update_of_ne (hnone x hxm), h.flat]
  · rw [refs_erase _ hm, refs_erase target hm, refs_congr hothers, Function.update_self, hself]
    by_cases hxd : x = d
    · subst hxd
      simp [Ne.symm hne]
    · have hdx : d ≠ x := Ne.symm hxd
      simp [hxd, hdx]

/-- An object goes out of use, and is detached. -/
theorem Attached.release (h : Attached target users) (hm : m ∈ users) :
    Attached (Function.update target m m) (users.erase m) ∧
      ∀ x, refs target users x = refs (Function.update target m m) (users.erase m) x +
        if m = x ∨ target m = x then 1 else 0 := by
  have hothers : ∀ y ∈ users.erase m, Function.update target m m y = target y := fun y hy =>
    Function.update_of_ne (List.Nodup.mem_erase_iff h.nodup |>.mp hy).1 _ _
  refine ⟨⟨h.nodup.erase m, fun x hx => ?_, fun x => ?_⟩, fun x => ?_⟩
  · by_cases hxm : x = m
    · rw [hxm, Function.update_self]
    · rw [Function.update_of_ne hxm]
      exact h.outside x fun hin => hx ((List.Nodup.mem_erase_iff h.nodup).mpr ⟨hxm, hin⟩)
  · by_cases hxm : x = m
    · rw [hxm, Function.update_self, Function.update_self]
    · rw [Function.update_of_ne hxm]
      by_cases htarget : target x = m
      · rw [htarget, Function.update_self]
      · rw [Function.update_of_ne htarget, h.flat]
  · rw [refs_erase target hm, refs_congr hothers]

end RefCount
