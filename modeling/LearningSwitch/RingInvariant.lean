import LearningSwitch.RingThreads

namespace LearningSwitch

open CircularWindow SpanTiling

variable {α τ : Type}

/-- The mask of a ring whose size is a power of two. -/
structure RteRing.Masked (r : RteRing α) : Prop where
  power : ∃ k, r.prod.mask.toNat + 1 = 2 ^ k
  bound : r.prod.mask.toNat < 2 ^ 31

/-- The number of cells. -/
def RteRing.slots (r : RteRing α) : Nat :=
  r.prod.mask.toNat + 1

theorem RteRing.Masked.index {r : RteRing α} (h : r.Masked) (a i : Nat) :
    r.index (UInt32.ofNat a) i = (a + i) % r.slots := by
  obtain ⟨k, hk⟩ := h.power
  rw [RteRing.index, ← UInt32.ofNat_add]
  exact toNat_and_mask hk _

/-- The objects that went through each side in the calls that returned. -/
def RingState.done (s : RingState τ α) (side : RingSide) : Nat :=
  (s.through side).length

/-- How far the head of a side may go, counted from the creation of the ring. -/
def RingState.limit (s : RingState τ α) : RingSide → Nat
  | .prod => s.done .cons + s.ring.prod.mask.toNat
  | .cons => s.done .prod

/-- The positions that a thread has reserved and not yet handed over. -/
def RingThread.taken (seen : Nat) (side : RingSide) : RingThread α → Option Span
  | .copying c _ n _ _ | .waiting c _ n _ _ | .ending c _ n _ _ =>
    if c.side = side then some ⟨seen, n.toNat⟩ else none
  | _ => none

def RingState.taken (s : RingState τ α) (side : RingSide) (t : τ) : Option Span :=
  (s.threads t).taken (s.seen t) side

def RingCall.Moves : RingCall α → List α → Prop
  | .enqueue _ objTable _ _, moved => moved = (List.range moved.length).map objTable
  | .dequeue .., _ => True

/-- A thread that has read the head of its side and not yet moved it. -/
structure RingState.Loaded (s : RingState τ α) (t : τ) (c : RingCall α) (head : UInt32) : Prop where
  max : 0 < c.max
  head : head = UInt32.ofNat (s.seen t)
  le : s.seen t ≤ s.reserved c.side
  single : c.multi = false → s.seen t = s.reserved c.side

/-- A thread that has reserved positions and moved some of its objects. -/
structure RingState.Holds (s : RingState τ α) (t : τ) (c : RingCall α) (head n : UInt32)
    (moved : List α) : Prop where
  head : head = UInt32.ofNat (s.seen t)
  le : moved.length ≤ n.toNat
  cells : window s.ring.ring s.ring.slots (s.seen t) moved.length = moved
  moves : c.Moves moved

def RingState.ThreadOk (s : RingState τ α) (t : τ) : RingThread α → Prop
  | .idle => True
  | .start c => 0 < c.max
  | .headRead c head => s.Loaded t c head
  | .admitted c head n room => s.Loaded t c head ∧ (s.seen t = s.reserved c.side →
      0 < n.toNat ∧ n.toNat ≤ room.toNat ∧ s.seen t + room.toNat ≤ s.limit c.side)
  | .copying c head n _ moved => s.Holds t c head n moved
  | .waiting c head n _ moved => s.Holds t c head n moved ∧ moved.length = n.toNat
  | .ending c head n _ moved =>
    s.Holds t c head n moved ∧ moved.length = n.toNat ∧ s.seen t = s.done c.side

/-- What holds between the steps of the threads. -/
structure RingState.Inv (s : RingState τ α) : Prop where
  masked : s.ring.Masked
  head : ∀ side, s.ring.head side = UInt32.ofNat (s.reserved side)
  tail : ∀ side, s.ring.tail side = UInt32.ofNat (s.done side)
  le : ∀ side, s.reserved side ≤ s.limit side
  tiles : ∀ side, Tiles (s.done side) (s.reserved side) (s.taken side)
  content : s.through .prod = s.through .cons ++
    window s.ring.ring s.ring.slots (s.done .cons) (s.done .prod - s.done .cons)
  thread : ∀ t, s.ThreadOk t (s.threads t)
  alone : ∀ t u c d, t ≠ u → (s.threads t).call = some c → (s.threads u).call = some d →
    c.side = d.side → c.multi = true

namespace RingState

variable {s s' : RingState τ α} {t : τ}

theorem ring_limit (ht : ∀ side, s.ring.tail side = UInt32.ofNat (s.done side))
    (side : RingSide) : s.ring.limit side = UInt32.ofNat (s.limit side) := by
  cases side with
  | prod =>
    have hc : s.ring.cons.tail = UInt32.ofNat (s.done .cons) := ht .cons
    simp only [RteRing.limit, RingState.limit, hc, UInt32.ofNat_add, UInt32.ofNat_toNat]
    exact UInt32.add_comm _ _
  | cons => exact ht .prod

namespace Inv

/-- The objects given to consumers, reserved by them, put by producers and reserved by them, in
this order, with room for `mask` objects. -/
theorem order (h : s.Inv) : s.done .cons ≤ s.reserved .cons ∧ s.reserved .cons ≤ s.done .prod ∧
    s.done .prod ≤ s.reserved .prod ∧
    s.reserved .prod ≤ s.done .cons + s.ring.prod.mask.toNat :=
  ⟨(h.tiles .cons).le, h.le .cons, (h.tiles .prod).le, h.le .prod⟩

theorem limit_lt (h : s.Inv) (side : RingSide) : s.limit side < s.reserved side + 2 ^ 31 := by
  have ho := h.order
  have hb := h.masked.bound
  cases side with
  | prod => simp only [RingState.limit]; omega
  | cons => simp only [RingState.limit]; omega

end Inv

/-- What a step of another thread leaves of what is known of a thread. -/
theorem ThreadOk.frame {th : RingThread α} (h : s.ThreadOk t th) (hseen : s'.seen t = s.seen t)
    (hmask : s'.ring.prod.mask = s.ring.prod.mask)
    (hres : ∀ side, s.reserved side ≤ s'.reserved side)
    (hsingle : ∀ c, th.call = some c → c.multi = false → s'.reserved c.side = s.reserved c.side)
    (hlimit : ∀ side, s.limit side ≤ s'.limit side)
    (hcells : ∀ side span, th.taken (s.seen t) side = some span → ∀ len ≤ span.len,
      window s'.ring.ring s.ring.slots span.start len =
        window s.ring.ring s.ring.slots span.start len)
    (hend : ∀ c head n ret moved, th = .ending c head n ret moved →
      s'.done c.side = s.done c.side) : s'.ThreadOk t th := by
  have hslots : s'.ring.slots = s.ring.slots := by rw [RteRing.slots, hmask, RteRing.slots]
  have loaded : ∀ {c head}, th.call = some c → s.Loaded t c head → s'.Loaded t c head := by
    intro c head hc hl
    refine ⟨hl.max, by rw [hl.head, hseen], ?_, ?_⟩
    · have := hl.le
      have := hres c.side
      omega
    · intro hm
      rw [hseen, hsingle c hc hm]
      exact hl.single hm
  have holds : ∀ {c head n moved}, th.taken (s.seen t) c.side = some ⟨s.seen t, n.toNat⟩ →
      s.Holds t c head n moved → s'.Holds t c head n moved := by
    intro c head n moved hspan hh
    refine ⟨by rw [hh.head, hseen], hh.le, ?_, hh.moves⟩
    rw [hslots, hseen, hcells c.side _ hspan moved.length hh.le]
    exact hh.cells
  cases th with
  | idle => trivial
  | start c => exact h
  | headRead c head => exact loaded rfl h
  | admitted c head n room =>
    refine ⟨loaded rfl h.1, fun he => ?_⟩
    have hle := h.1.le
    have := hres c.side
    have := hlimit c.side
    obtain ⟨hn, hroom, hlim⟩ := h.2 (by omega)
    exact ⟨hn, hroom, by omega⟩
  | copying c head n room moved => exact holds (by simp [RingThread.taken]) h
  | waiting c head n ret moved => exact ⟨holds (by simp [RingThread.taken]) h.1, h.2⟩
  | ending c head n ret moved =>
    refine ⟨holds (by simp [RingThread.taken]) h.1, h.2.1, ?_⟩
    rw [hseen, hend c head n ret moved rfl]
    exact h.2.2

/-- A step of `t` that moves no head and no tail, and leaves the entries and the cells that the
other threads hold. -/
theorem Inv.of_kept (h : s.Inv) (hmask : s'.ring.prod.mask = s.ring.prod.mask)
    (hhead : ∀ side, s'.ring.head side = s.ring.head side)
    (htail : ∀ side, s'.ring.tail side = s.ring.tail side)
    (hres : s'.reserved = s.reserved) (hthrough : s'.through = s.through)
    (others : ∀ u, u ≠ t → s'.threads u = s.threads u ∧ s'.seen u = s.seen u)
    (hcall : ∀ c, (s'.threads t).call = some c → (s.threads t).call = some c)
    (htaken : ∀ side, s'.taken side t = s.taken side t)
    (hentries : window s'.ring.ring s.ring.slots (s.done .cons) (s.done .prod - s.done .cons) =
      window s.ring.ring s.ring.slots (s.done .cons) (s.done .prod - s.done .cons))
    (hcells : ∀ u, u ≠ t → ∀ side span, s.taken side u = some span → ∀ len ≤ span.len,
      window s'.ring.ring s.ring.slots span.start len =
        window s.ring.ring s.ring.slots span.start len)
    (hok : s'.ThreadOk t (s'.threads t)) : s'.Inv := by
  have hslots : s'.ring.slots = s.ring.slots := by rw [RteRing.slots, hmask, RteRing.slots]
  have hdone : s'.done = s.done := by
    funext side
    rw [RingState.done, hthrough, RingState.done]
  have hlimit : s'.limit = s.limit := by
    funext side
    cases side <;> simp only [RingState.limit, hdone, hmask]
  have hcalls : ∀ u c, (s'.threads u).call = some c → (s.threads u).call = some c := by
    intro u c hu
    by_cases he : u = t
    · rw [he] at hu ⊢
      exact hcall c hu
    · rw [(others u he).1] at hu
      exact hu
  have hspans : ∀ side, s'.taken side = s.taken side := by
    intro side
    funext u
    by_cases he : u = t
    · rw [he]
      exact htaken side
    · rw [RingState.taken, (others u he).1, (others u he).2, RingState.taken]
  refine ⟨⟨by rw [hmask]; exact h.masked.power, by rw [hmask]; exact h.masked.bound⟩,
    ?_, ?_, ?_, ?_, ?_, ?_, ?_⟩
  · intro side
    rw [hhead, hres]
    exact h.head side
  · intro side
    rw [htail, hdone]
    exact h.tail side
  · rw [hres, hlimit]
    exact h.le
  · intro side
    rw [hdone, hres, hspans]
    exact h.tiles side
  · rw [hthrough, hslots, hdone, hentries]
    exact h.content
  · intro u
    by_cases he : u = t
    · rw [he]
      exact hok
    · rw [(others u he).1]
      exact (h.thread u).frame (others u he).2 hmask (by simp [hres]) (by simp [hres])
        (by simp [hlimit]) (hcells u he) (by simp [hdone])
  · intro u v c d huv hu hv
    exact h.alone u v c d huv (hcalls u c hu) (hcalls v d hv)

/-- The head that a thread compares is the one it read only if no object was reserved since. -/
theorem Inv.seen_of_head (h : s.Inv) {c : RingCall α} {head : UInt32} (hl : s.Loaded t c head)
    (near : c.multi = true → s.reserved c.side < s.seen t + 2 ^ 32)
    (hset : c.multi = false ∨ s.ring.head c.side = head) : s.seen t = s.reserved c.side := by
  cases hm : c.multi with
  | false => exact hl.single hm
  | true =>
    rw [hm] at hset
    have he : s.ring.head c.side = head := by simpa using hset
    rw [h.head, hl.head] at he
    exact ofNat_inj_of_near hl.le (near hm) he.symm

theorem Inv.reserved_lt (h : s.Inv) (side : RingSide) :
    s.reserved side < s.done side + 2 ^ 31 := by
  have ho := h.order
  have hb := h.masked.bound
  cases side with
  | prod => omega
  | cons => omega

theorem Inv.inside (h : s.Inv) {side : RingSide} {span : Span} (ht : s.taken side t = some span) :
    s.done side ≤ span.start ∧ span.start + span.len ≤ s.reserved side :=
  (h.tiles side).inside t span ht

theorem call_of_taken {side : RingSide} {span : Span} (ht : s.taken side t = some span) :
    ∃ c, (s.threads t).call = some c ∧ c.side = side := by
  unfold taken RingThread.taken at ht
  split at ht
  next c _ _ _ _ heq =>
    refine ⟨c, by rw [heq]; rfl, ?_⟩
    by_contra hne
    simp [hne] at ht
  next c _ _ _ _ heq =>
    refine ⟨c, by rw [heq]; rfl, ?_⟩
    by_contra hne
    simp [hne] at ht
  next c _ _ _ _ heq =>
    refine ⟨c, by rw [heq]; rfl, ?_⟩
    by_contra hne
    simp [hne] at ht
  next => cases ht

/-- A thread that no longer has to wait holds the first of the reserved positions. -/
theorem Inv.seen_of_tail (h : s.Inv) {c : RingCall α} {head n : UInt32} {moved : List α}
    (hc : (s.threads t).call = some c) (hspan : s.taken c.side t = some ⟨s.seen t, n.toNat⟩)
    (hh : s.Holds t c head n moved) (hwait : c.multi = false ∨ s.ring.tail c.side = head) :
    s.seen t = s.done c.side := by
  have hin := h.inside hspan
  simp only at hin
  cases hm : c.multi with
  | false =>
    refine ((h.tiles c.side).eq_of_single hspan ?_).1
    intro u hu
    by_contra hne
    obtain ⟨span, hsp⟩ := Option.ne_none_iff_exists'.mp hne
    obtain ⟨d, hd, hside⟩ := call_of_taken hsp
    have := h.alone t u c d (Ne.symm hu) hc hd hside.symm
    rw [hm] at this
    cases this
  | true =>
    rw [hm] at hwait
    have he : s.ring.tail c.side = head := by simpa using hwait
    rw [h.tail, hh.head] at he
    have hlt := h.reserved_lt c.side
    exact (ofNat_inj_of_near hin.1 (by omega) he).symm

theorem Inv.setWaterMark (h : s.Inv) (count : UInt32) :
    ({ s with ring := (rteRingSetWaterMark s.ring count).1 } : RingState τ α).Inv := by
  unfold rteRingSetWaterMark
  split
  next => exact h
  next =>
    refine ⟨⟨h.masked.power, h.masked.bound⟩, ?_, ?_, h.le, h.tiles, h.content, ?_, h.alone⟩
    · intro side
      refine Eq.trans ?_ (h.head side)
      cases side <;> rfl
    · intro side
      refine Eq.trans ?_ (h.tail side)
      cases side <;> rfl
    · intro u
      exact (h.thread u).frame rfl rfl (by simp) (by simp) (fun _ => Nat.le_refl _)
        (fun _ _ _ _ _ => rfl) (fun _ _ _ _ _ _ => rfl)

/-- A cell between the consumers' tail and the producers' head lies in no other window there. -/
theorem Inv.window_write (h : s.Inv) {head : UInt32} {i pos : Nat} (obj : α)
    (hpos : s.ring.index head i = pos % s.ring.slots) (hge : s.done .cons ≤ pos)
    (hlt : pos < s.reserved .prod) (lo len : Nat) (hlo : s.done .cons ≤ lo)
    (hhi : lo + len ≤ s.reserved .prod) (hout : pos < lo ∨ lo + len ≤ pos) :
    window (s.ring.write head i obj).ring s.ring.slots lo len =
      window s.ring.ring s.ring.slots lo len := by
  have ho := h.order
  have hsize : s.ring.slots = s.ring.prod.mask.toNat + 1 := rfl
  rw [RteRing.write, hpos]
  exact window_update (s.done .cons) hlo (by omega) hge (by omega) hout

/-- What a thread holds after it has stored the next object of its call. -/
theorem Inv.holds_write (h : s.Inv) {multi : Bool} {objTable : Nat → α} {max : UInt32}
    {behavior : RingQueueBehavior} {head n : UInt32} {moved : List α}
    (hh : s.Holds t (.enqueue multi objTable max behavior) head n moved)
    (hlt : moved.length < n.toNat) (hfit : s.seen t + n.toNat ≤ s.reserved .prod)
    (hge : s.done .cons ≤ s.seen t)
    (hring : s'.ring = s.ring.write head moved.length (objTable moved.length))
    (hseen : s'.seen t = s.seen t) :
    s'.Holds t (.enqueue multi objTable max behavior) head n
      (moved ++ [objTable moved.length]) := by
  have hpos : s.ring.index head moved.length = (s.seen t + moved.length) % s.ring.slots := by
    rw [hh.head, h.masked.index]
  have hslots : s'.ring.slots = s.ring.slots := by rw [hring, RteRing.write]; rfl
  refine ⟨by rw [hh.head, hseen], by rw [List.length_append]; exact hlt, ?_, ?_⟩
  · have ho := h.order
    have hsize : s.ring.slots = s.ring.prod.mask.toNat + 1 := rfl
    rw [hslots, hseen, hring, RteRing.write, hpos, List.length_append, List.length_singleton,
      window_update_succ, hh.cells]
    omega
  · have hmoves : moved = (List.range moved.length).map objTable := hh.moves
    show moved ++ [objTable moved.length] = _
    rw [List.length_append, List.length_singleton, List.range_succ, List.map_append, ← hmoves]
    rfl

/-- Two threads cannot both hold the first positions of a side. -/
theorem Inv.side_ne_of_ending (h : s.Inv) {u : τ} {c d : RingCall α} {head n head' n' : UInt32}
    {ret ret' : Int32} {moved moved' : List α} (ht : s.threads t = .ending c head n ret moved)
    (hu : s.threads u = .ending d head' n' ret' moved') (hne : u ≠ t) : d.side ≠ c.side := by
  intro hside
  have hokT := h.thread t
  have hokU := h.thread u
  rw [ht] at hokT
  rw [hu] at hokU
  obtain ⟨_, _, hfirstT⟩ := hokT
  obtain ⟨_, _, hfirstU⟩ := hokU
  rw [hside] at hfirstU
  have hspanT : s.taken c.side t = some ⟨s.seen t, n.toNat⟩ := by
    simp [taken, ht, RingThread.taken]
  have hspanU : s.taken c.side u = some ⟨s.seen u, n'.toNat⟩ := by
    simp [taken, hu, RingThread.taken, hside]
  have hap := (h.tiles c.side).apart t u _ _ hspanT hspanU (Ne.symm hne)
  have hposT := (h.tiles c.side).pos t _ hspanT
  have hposU := (h.tiles c.side).pos u _ hspanU
  simp only at hap hposT hposU
  omega

section Step

variable [DecidableEq τ]

theorem runThread_eq {ring : RteRing α} {th' : RingThread α} {out : Option (RingReturn α)}
    (h : (s.threads t).run s.ring = (ring, th', out)) :
    s.runThread t = {
      ring
      threads := Function.update s.threads t th'
      reserved := fun side => s.reserved side + (s.threads t).reserves th' side
      seen := Function.update s.seen t ((s.threads t).sees s.reserved (s.seen t))
      returned := s.returned ++ out.toList.map (t, ·) } := by
  rw [runThread, h]

theorem Inv.call (h : s.Inv) {c : RingCall α} (hidle : (s.threads t).call = none)
    (hc : s.Disciplined (.call t c)) :
    ({ s with threads := Function.update s.threads t (.start c) } : RingState τ α).Inv := by
  obtain ⟨hmax, halone⟩ := hc
  have hid : s.threads t = .idle := by
    cases hth : s.threads t with
    | idle => rfl
    | _ => rw [hth] at hidle; cases hidle
  have hspans : ∀ side,
      ({ s with threads := Function.update s.threads t (.start c) } : RingState τ α).taken side =
        s.taken side := by
    intro side
    funext u
    by_cases he : u = t
    · simp [taken, he, hid, RingThread.taken]
    · simp [taken, he]
  refine ⟨h.masked, h.head, h.tail, h.le, ?_, h.content, ?_, ?_⟩
  · intro side
    rw [hspans]
    exact h.tiles side
  · intro u
    by_cases he : u = t
    · simpa [he, ThreadOk] using hmax
    · simp only [ne_eq, he, not_false_eq_true, Function.update_of_ne]
      exact (h.thread u).frame rfl rfl (by simp) (by simp) (fun _ => Nat.le_refl _) (by simp)
        (fun _ _ _ _ _ _ => rfl)
  · intro u v d e huv hu hv hde
    by_cases heu : u = t
    · have hev : v ≠ t := by rw [← heu]; exact huv.symm
      simp [heu, RingThread.call] at hu
      simp [hev] at hv
      subst d
      exact (halone v e hv hde.symm).2
    · simp [heu] at hu
      by_cases hev : v = t
      · simp [hev, RingThread.call] at hv
        subst e
        exact (halone u d hu hde).1
      · simp [hev] at hv
        exact h.alone u v d e huv hu hv hde

/-- A step of `t` that moves no object and changes nothing the threads share. -/
theorem Inv.run_quiet (h : s.Inv) (th' : RingThread α) (out : Option (RingReturn α))
    (hrun : (s.threads t).run s.ring = (s.ring, th', out)) (hout : ∀ e ∈ out, e.objs = [])
    (hres : ∀ side, (s.threads t).reserves th' side = 0)
    (hcall : ∀ c, th'.call = some c → (s.threads t).call = some c)
    (htaken : ∀ side, th'.taken ((s.threads t).sees s.reserved (s.seen t)) side = s.taken side t)
    (hok : ∀ s' : RingState τ α, s'.ring = s.ring → s'.reserved = s.reserved →
      s'.limit = s.limit → s'.done = s.done →
      s'.seen t = (s.threads t).sees s.reserved (s.seen t) → s'.ThreadOk t th') :
    (s.runThread t).Inv := by
  rw [runThread_eq hrun]
  have hthrough : ∀ side,
      (out.toList.map (t, ·)).flatMap (fun e => if e.2.call.side = side then e.2.objs else []) =
        [] := by
    intro side
    cases out with
    | none => rfl
    | some e => simp [hout e rfl]
  have hreserved :
      (fun side => s.reserved side + (s.threads t).reserves th' side) = s.reserved := by
    funext side
    rw [hres, Nat.add_zero]
  refine h.of_kept (t := t) rfl (fun _ => rfl) (fun _ => rfl) hreserved ?_ ?_ ?_ ?_ rfl
    (fun _ _ _ _ _ _ _ => rfl) ?_
  · funext side
    rw [through, List.flatMap_append, hthrough, List.append_nil, through]
  · intro u hu
    simp [hu]
  · simpa using hcall
  · simpa [taken] using htaken
  · have hdone : ∀ side, (s.returned ++ out.toList.map (t, ·)).flatMap
        (fun e => if e.2.call.side = side then e.2.objs else []) = s.through side := by
      intro side
      rw [List.flatMap_append, hthrough, List.append_nil, through]
    simp only [Function.update_self]
    refine hok _ rfl hreserved ?_ ?_ ?_
    · funext side
      cases side <;> simp only [RingState.limit, RingState.done, through, hdone]
    · funext side
      simp only [RingState.done, through, hdone]
    · simp

theorem Inv.run_start (h : s.Inv) {c : RingCall α} (ht : s.threads t = .start c) :
    (s.runThread t).Inv := by
  have hok := h.thread t
  rw [ht] at hok
  refine h.run_quiet (.headRead c (s.ring.head c.side)) none (by rw [ht]; rfl) (by simp) ?_ ?_ ?_ ?_
  · simp [ht, RingThread.reserves]
  · simp [ht, RingThread.call]
  · simp [taken, ht, RingThread.taken]
  · intro s' _ hres _ _ hseen
    rw [ht, RingThread.sees] at hseen
    exact ⟨hok, by rw [h.head, hseen], by rw [hseen, hres], by simp [hseen, hres]⟩

theorem Inv.run_headRead (h : s.Inv) {c : RingCall α} {head : UInt32}
    (ht : s.threads t = .headRead c head) : (s.runThread t).Inv := by
  have hok := h.thread t
  rw [ht] at hok
  cases hq : ringQuota c.behavior c.fail c.max (s.ring.limit c.side - head) with
  | error ret =>
    refine h.run_quiet .idle (some ⟨c, [], ret⟩) ?_ (by simp) ?_ ?_ ?_ ?_
    · simp [ht, RingThread.run, hq]
    · simp [ht, RingThread.reserves]
    · simp [RingThread.call]
    · simp [taken, ht, RingThread.taken]
    · intros
      trivial
  | ok n =>
    obtain ⟨hpos, hroom, _⟩ := ringQuota_ok hq hok.max
    refine h.run_quiet (.admitted c head n (s.ring.limit c.side - head)) none
      ?_ (by simp) ?_ ?_ ?_ ?_
    · simp [ht, RingThread.run, hq]
    · simp [ht, RingThread.reserves]
    · simp [ht, RingThread.call]
    · simp [taken, ht, RingThread.taken]
    · intro s' _ hres hlimit _ hseen
      have hseen : s'.seen t = s.seen t := by simpa [ht, RingThread.sees] using hseen
      refine ⟨⟨hok.max, ?_, ?_, ?_⟩, fun he => ?_⟩
      · rw [hok.head, hseen]
      · rw [hseen, hres]
        exact hok.le
      · rw [hseen, hres]
        exact hok.single
      · rw [hseen, hres] at he
        have hlt := h.limit_lt c.side
        have hle := h.le c.side
        have hsub : (s.ring.limit c.side - head).toNat = s.limit c.side - s.seen t := by
          rw [ring_limit h.tail, hok.head]
          exact toNat_sub_ofNat (by omega) (by omega)
        have hn := UInt32.le_iff_toNat_le.mp hroom
        rw [hlimit, hseen]
        exact ⟨UInt32.lt_iff_toNat_lt.mp hpos, hn, by omega⟩

section Reserving

variable {c : RingCall α} {head n room : UInt32}

/-- The compare-and-set of the head succeeds, or the call is an `sp` or `sc` one. -/
theorem runThread_reserving (ht : s.threads t = .admitted c head n room)
    (hset : c.multi = false ∨ s.ring.head c.side = head) :
    s.runThread t = {
      ring := s.ring.setHead c.side (head + n)
      threads := Function.update s.threads t (.copying c head n room [])
      reserved := fun side => s.reserved side + if side = c.side then n.toNat else 0
      seen := s.seen
      returned := s.returned } := by
  have hrun : (s.threads t).run s.ring =
      (s.ring.setHead c.side (head + n), .copying c head n room [], none) := by
    simp [ht, RingThread.run, hset]
  rw [runThread_eq hrun]
  simp [ht, RingThread.reserves, RingThread.sees]

theorem taken_reserving (ht : s.threads t = .admitted c head n room)
    (hset : c.multi = false ∨ s.ring.head c.side = head) (hs : s.seen t = s.reserved c.side)
    (side : RingSide) : (s.runThread t).taken side =
      if side = c.side then Function.update (s.taken side) t (some ⟨s.reserved side, n.toNat⟩)
      else s.taken side := by
  rw [runThread_reserving ht hset]
  funext u
  by_cases he : u = t
  · by_cases hside : side = c.side
    · simp [he, taken, RingThread.taken, hside, hs]
    · simp [he, taken, RingThread.taken, hside, Ne.symm hside, ht]
  · by_cases hside : side = c.side
    · simp [he, taken, hside]
    · simp [he, taken, hside]

theorem call_reserving (ht : s.threads t = .admitted c head n room)
    (hset : c.multi = false ∨ s.ring.head c.side = head) (u : τ) :
    ((s.runThread t).threads u).call = (s.threads u).call := by
  rw [runThread_reserving ht hset]
  by_cases he : u = t
  · simp [he, ht, RingThread.call]
  · simp [he]

/-- The threads but `t` see a head that moved, on a side where none of them runs alone. -/
theorem Inv.threadOk_reserving (h : s.Inv) (ht : s.threads t = .admitted c head n room)
    (hset : c.multi = false ∨ s.ring.head c.side = head) {u : τ} (he : u ≠ t) :
    (s.runThread t).ThreadOk u ((s.runThread t).threads u) := by
  have hown : (s.threads t).call = some c := by rw [ht]; rfl
  rw [runThread_reserving ht hset]
  simp only [Function.update_of_ne he]
  refine (h.thread u).frame rfl (RteRing.mask_setHead ..) (fun side => Nat.le_add_right _ _)
    (fun d hd hm => ?_) (fun side => ?_) (fun side span _ len _ => ?_) fun _ _ _ _ _ _ => rfl
  · -- an `sp` or `sc` call excludes `t` from its side
    have hside : d.side ≠ c.side := by
      intro hside
      rw [h.alone u t d c he hd hown hside] at hm
      cases hm
    simp [hside]
  · refine Nat.le_of_eq ?_
    cases side <;> simp only [RingState.limit, RteRing.mask_setHead] <;> rfl
  · rw [RteRing.ring_setHead]

end Reserving

theorem Inv.reserve (h : s.Inv) {c : RingCall α} {head n room : UInt32}
    (ht : s.threads t = .admitted c head n room)
    (hset : c.multi = false ∨ s.ring.head c.side = head)
    (hs : s.seen t = s.reserved c.side) : (s.runThread t).Inv := by
  have hok := h.thread t
  rw [ht] at hok
  obtain ⟨hl, hadm⟩ := hok
  obtain ⟨hpos, hroom, hlim⟩ := hadm hs
  have hnone : ∀ side, s.taken side t = none := by simp [taken, ht, RingThread.taken]
  have hspans := taken_reserving ht hset hs
  have hcalls := call_reserving ht hset
  have hothers : ∀ u, u ≠ t → (s.runThread t).ThreadOk u ((s.runThread t).threads u) :=
    fun _ he => h.threadOk_reserving ht hset he
  have hthread : (s.runThread t).threads t = .copying c head n room [] := by
    rw [runThread_reserving ht hset]
    exact Function.update_self ..
  have hring : (s.runThread t).ring = s.ring.setHead c.side (head + n) := by
    rw [runThread_reserving ht hset]
  have hreserved : (s.runThread t).reserved = fun side =>
      s.reserved side + if side = c.side then n.toNat else 0 := by
    rw [runThread_reserving ht hset]
  have hseen : (s.runThread t).seen = s.seen := by rw [runThread_reserving ht hset]
  have hthrough : (s.runThread t).through = s.through := by
    rw [runThread_reserving ht hset]
    rfl
  generalize s.runThread t = s' at *
  have hmask : s'.ring.prod.mask = s.ring.prod.mask := by rw [hring, RteRing.mask_setHead]
  have hdone : s'.done = s.done := by
    funext side
    rw [RingState.done, hthrough, RingState.done]
  have hlimit : s'.limit = s.limit := by
    funext side
    cases side <;> simp only [RingState.limit, hdone, hmask]
  refine ⟨⟨by rw [hmask]; exact h.masked.power, by rw [hmask]; exact h.masked.bound⟩,
    ?_, ?_, ?_, ?_, ?_, ?_, ?_⟩
  · intro side
    rw [hring, RteRing.head_setHead, hreserved]
    by_cases hside : side = c.side
    · simp [hside, hl.head, hs]
    · simp [hside, h.head]
  · rw [hring, RteRing.tail_setHead, hdone]
    exact h.tail
  · intro side
    have := h.le side
    rw [hlimit, hreserved]
    by_cases hside : side = c.side
    · simp only [hside, if_true]
      omega
    · simpa [hside] using this
  · intro side
    rw [hspans, hdone, hreserved]
    by_cases hside : side = c.side
    · simp only [hside, if_true]
      exact (h.tiles c.side).reserve (hnone c.side) hpos
    · simpa [hside] using h.tiles side
  · rw [hthrough, hring, hdone]
    simpa [RteRing.slots] using h.content
  · intro u
    by_cases he : u = t
    · rw [he, hthread]
      exact ⟨by rw [hl.head, hseen], by simp, by simp, by cases c <;> simp [RingCall.Moves]⟩
    · exact hothers u he
  · intro u v d e huv hu hv
    rw [hcalls] at hu hv
    exact h.alone u v d e huv hu hv

theorem Inv.run_admitted (h : s.Inv) {c : RingCall α} {head n room : UInt32}
    (ht : s.threads t = .admitted c head n room) (hd : s.Disciplined (.run t)) :
    (s.runThread t).Inv := by
  have hok := h.thread t
  rw [ht] at hok
  simp only [Disciplined, ht] at hd
  by_cases hset : c.multi = false ∨ s.ring.head c.side = head
  · exact h.reserve ht hset (h.seen_of_head hok.1 hd hset)
  · refine h.run_quiet (.start c) none ?_ (by simp) ?_ ?_ ?_ ?_
    · simp [ht, RingThread.run, hset]
    · simp [ht, RingThread.reserves]
    · simp [ht, RingThread.call]
    · simp [taken, ht, RingThread.taken]
    · intros
      exact hok.1.max

theorem Inv.run_waiting (h : s.Inv) {c : RingCall α} {head n : UInt32} {ret : Int32}
    {moved : List α} (ht : s.threads t = .waiting c head n ret moved) : (s.runThread t).Inv := by
  have hok := h.thread t
  rw [ht] at hok
  obtain ⟨hh, hlen⟩ := hok
  have holds : ∀ s' : RingState τ α, s'.ring = s.ring →
      s'.seen t = (s.threads t).sees s.reserved (s.seen t) → s'.Holds t c head n moved := by
    intro s' hring hseen
    have hseen : s'.seen t = s.seen t := by simpa [ht, RingThread.sees] using hseen
    exact ⟨by rw [hh.head, hseen], hh.le, by rw [hring, hseen]; exact hh.cells, hh.moves⟩
  by_cases hwait : c.multi = false ∨ s.ring.tail c.side = head
  · refine h.run_quiet (.ending c head n ret moved) none ?_ (by simp) ?_ ?_ ?_ ?_
    · simp [ht, RingThread.run, hwait]
    · simp [ht, RingThread.reserves]
    · simp [ht, RingThread.call]
    · simp [taken, ht, RingThread.taken, RingThread.sees]
    · intro s' hring _ _ hdone hseen
      have hown : (s.threads t).call = some c := by rw [ht]; rfl
      have hspan : s.taken c.side t = some ⟨s.seen t, n.toNat⟩ := by
        simp [taken, ht, RingThread.taken]
      have hfirst := h.seen_of_tail hown hspan hh hwait
      refine ⟨holds s' hring hseen, hlen, ?_⟩
      have hseen : s'.seen t = s.seen t := by simpa [ht, RingThread.sees] using hseen
      rw [hseen, hdone, hfirst]
  · refine h.run_quiet (.waiting c head n ret moved) none ?_ (by simp) ?_ ?_ ?_ ?_
    · simp [ht, RingThread.run, hwait]
    · simp [ht, RingThread.reserves]
    · simp [ht, RingThread.call]
    · simp [taken, ht, RingThread.taken, RingThread.sees]
    · intro s' hring _ _ _ hseen
      exact ⟨holds s' hring hseen, hlen⟩

theorem Inv.run_copied (h : s.Inv) {c : RingCall α} {head n room : UInt32} {moved : List α}
    (ht : s.threads t = .copying c head n room moved) (hfull : ¬moved.length < n.toNat) :
    (s.runThread t).Inv := by
  have hh := h.thread t
  rw [ht] at hh
  refine h.run_quiet (.waiting c head n (s.ring.answer n room c) moved) none
    ?_ (by simp) ?_ ?_ ?_ ?_
  · simp [ht, RingThread.run, hfull]
  · simp [ht, RingThread.reserves]
  · simp [ht, RingThread.call]
  · simp [taken, ht, RingThread.taken, RingThread.sees]
  · intro s' hring _ _ _ hseen
    have hle := hh.le
    have hseen : s'.seen t = s.seen t := by simpa [ht, RingThread.sees] using hseen
    exact ⟨⟨by rw [hh.head, hseen], hh.le, by rw [hring, hseen]; exact hh.cells, hh.moves⟩,
      by omega⟩

theorem Inv.read (h : s.Inv) {multi : Bool} {max : UInt32} {behavior : RingQueueBehavior}
    {head n room : UInt32} {moved : List α}
    (ht : s.threads t = .copying (.dequeue multi max behavior) head n room moved)
    (hlt : moved.length < n.toNat) : (s.runThread t).Inv := by
  have hh := h.thread t
  rw [ht] at hh
  refine h.run_quiet (.copying (.dequeue multi max behavior) head n room
    (moved ++ [s.ring.ring (s.ring.index head moved.length)])) none ?_ (by simp) ?_ ?_ ?_ ?_
  · simp [ht, RingThread.run, hlt, RteRing.move]
  · simp [ht, RingThread.reserves]
  · simp [ht, RingThread.call]
  · simp [taken, ht, RingThread.taken, RingThread.sees]
  · intro s' hring _ _ _ hseen
    have hseen : s'.seen t = s.seen t := by simpa [ht, RingThread.sees] using hseen
    refine ⟨by rw [hh.head, hseen], by rw [List.length_append]; exact hlt, ?_, trivial⟩
    rw [hring, hseen, List.length_append, List.length_singleton, window_succ, hh.cells, hh.head,
      h.masked.index]

theorem Inv.write (h : s.Inv) {multi : Bool} {objTable : Nat → α} {max : UInt32}
    {behavior : RingQueueBehavior} {head n room : UInt32} {moved : List α}
    (ht : s.threads t = .copying (.enqueue multi objTable max behavior) head n room moved)
    (hlt : moved.length < n.toNat) : (s.runThread t).Inv := by
  have hh := h.thread t
  rw [ht] at hh
  have hspan : s.taken .prod t = some ⟨s.seen t, n.toNat⟩ := by
    simp [taken, ht, RingThread.taken, RingCall.side]
  have hin := h.inside hspan
  simp only at hin
  have hpos : s.ring.index head moved.length = (s.seen t + moved.length) % s.ring.slots := by
    rw [hh.head, h.masked.index]
  have ho := h.order
  have hwin := h.window_write (objTable moved.length) hpos (by omega) (by omega)
  have hrun : (s.threads t).run s.ring = (s.ring.write head moved.length (objTable moved.length),
      .copying (.enqueue multi objTable max behavior) head n room
        (moved ++ [objTable moved.length]), none) := by
    simp [ht, RingThread.run, hlt, RteRing.move]
  rw [runThread_eq hrun]
  refine h.of_kept (t := t) rfl ?_ ?_ ?_ ?_ ?_ ?_ ?_ ?_ ?_ ?_
  · intro side
    cases side <;> rfl
  · intro side
    cases side <;> rfl
  · simp [ht, RingThread.reserves]
  · funext side
    simp [through]
  · intro u hu
    simp [hu]
  · simp [ht, RingThread.call]
  · simp [taken, ht, RingThread.taken, RingThread.sees]
  · exact hwin _ _ (by omega) (by omega) (by omega)
  · intro u hu side span hsp len hle
    have hin' := h.inside hsp
    cases side with
    | prod =>
      have hap := (h.tiles .prod).apart t u _ span hspan hsp (Ne.symm hu)
      simp only at hap
      exact hwin _ _ (by omega) (by omega) (by omega)
    | cons => exact hwin _ _ (by omega) (by omega) (by omega)
  · simp only [Function.update_self]
    exact h.holds_write hh hlt (by omega) (by omega) rfl (by simp [ht, RingThread.sees])

theorem through_ending {c : RingCall α} {head n : UInt32} {ret : Int32} {moved : List α}
    (ht : s.threads t = .ending c head n ret moved) (side : RingSide) :
    (s.runThread t).through side =
      if side = c.side then s.through side ++ moved else s.through side := by
  by_cases hside : side = c.side
  · simp [runThread, ht, RingThread.run, through, hside]
  · simp [runThread, ht, RingThread.run, through, hside, Ne.symm hside]

theorem done_ending {c : RingCall α} {head n : UInt32} {ret : Int32} {moved : List α}
    (ht : s.threads t = .ending c head n ret moved) (hlen : moved.length = n.toNat)
    (side : RingSide) :
    (s.runThread t).done side = if side = c.side then s.done side + n.toNat else s.done side := by
  rw [RingState.done, through_ending ht]
  by_cases hside : side = c.side
  · simp [hside, hlen, RingState.done]
  · simp [hside, RingState.done]

theorem taken_ending {c : RingCall α} {head n : UInt32} {ret : Int32} {moved : List α}
    (ht : s.threads t = .ending c head n ret moved) (side : RingSide) :
    (s.runThread t).taken side =
      if side = c.side then Function.update (s.taken side) t none else s.taken side := by
  funext u
  by_cases he : u = t
  · by_cases hside : side = c.side
    · simp [he, runThread, ht, RingThread.run, taken, RingThread.taken, hside]
    · simp [he, runThread, ht, RingThread.run, taken, RingThread.taken, hside, Ne.symm hside]
  · by_cases hside : side = c.side
    · simp [he, runThread, taken, hside]
    · simp [he, runThread, taken, hside]

/-- The objects of a call become entries, or stop being entries, when it stores the tail. -/
theorem Inv.content_ending (h : s.Inv) {c : RingCall α} {head n : UInt32} {ret : Int32}
    {moved : List α} (ht : s.threads t = .ending c head n ret moved) :
    (s.runThread t).through .prod = (s.runThread t).through .cons ++
      window s.ring.ring s.ring.slots ((s.runThread t).done .cons)
        ((s.runThread t).done .prod - (s.runThread t).done .cons) := by
  have hok := h.thread t
  rw [ht] at hok
  obtain ⟨hh, hlen, hfirst⟩ := hok
  have hspan : s.taken c.side t = some ⟨s.seen t, n.toNat⟩ := by
    simp [taken, ht, RingThread.taken]
  have hin := h.inside hspan
  have ho := h.order
  have hcells := hh.cells
  rw [hfirst, hlen] at hcells
  simp only at hin
  rw [through_ending ht, through_ending ht, done_ending ht hlen, done_ending ht hlen, h.content]
  cases hc : c.side with
  | prod =>
    rw [hc] at hcells
    have hsplit : s.done .prod + n.toNat - s.done .cons =
        (s.done .prod - s.done .cons) + n.toNat := by omega
    have hat : s.done .cons + (s.done .prod - s.done .cons) = s.done .prod := by omega
    simp only [reduceCtorEq, if_true, if_false]
    rw [hsplit, window_add, hat, hcells, List.append_assoc]
  | cons =>
    rw [hc] at hcells hin hfirst
    have hless : s.done .prod - (s.done .cons + n.toNat) =
        s.done .prod - s.done .cons - n.toNat := by omega
    simp only [reduceCtorEq, if_true, if_false]
    rw [window_split (m := n.toNat) (by omega), hcells, hless, List.append_assoc]

theorem Inv.publish (h : s.Inv) {c : RingCall α} {head n : UInt32} {ret : Int32}
    {moved : List α} (ht : s.threads t = .ending c head n ret moved) : (s.runThread t).Inv := by
  have hok := h.thread t
  rw [ht] at hok
  obtain ⟨hh, hlen, hfirst⟩ := hok
  have hring : (s.runThread t).ring = s.ring.setTail c.side (head + n) := by
    simp [runThread, ht, RingThread.run]
  have hreserved : (s.runThread t).reserved = s.reserved := by
    simp [runThread, ht, RingThread.reserves]
  have hseen : (s.runThread t).seen = s.seen := by
    simp [runThread, ht, RingThread.sees]
  have hthreads : (s.runThread t).threads = Function.update s.threads t .idle := by
    simp [runThread, ht, RingThread.run]
  have hmask : (s.runThread t).ring.prod.mask = s.ring.prod.mask := by
    rw [hring, RteRing.mask_setTail]
  have hdones : ∀ side, s.done side ≤ (s.runThread t).done side := by
    intro side
    rw [done_ending ht hlen]
    split
    · omega
    · omega
  have hlimit : ∀ side, s.limit side ≤ (s.runThread t).limit side := by
    intro side
    have hp := hdones .prod
    have hc := hdones .cons
    cases side with
    | prod => simp only [RingState.limit, hmask]; omega
    | cons => simp only [RingState.limit]; omega
  have hcalls : ∀ u d, ((s.runThread t).threads u).call = some d →
      (s.threads u).call = some d := by
    intro u d hu
    by_cases he : u = t
    · simp [hthreads, he, RingThread.call] at hu
    · simpa [hthreads, he] using hu
  refine ⟨⟨by rw [hmask]; exact h.masked.power, by rw [hmask]; exact h.masked.bound⟩,
    ?_, ?_, ?_, ?_, ?_, ?_, ?_⟩
  · intro side
    rw [hring, RteRing.head_setTail, hreserved]
    exact h.head side
  · intro side
    rw [hring, RteRing.tail_setTail, done_ending ht hlen]
    by_cases hside : side = c.side
    · simp [hside, hh.head, hfirst]
    · simp [hside, h.tail]
  · intro side
    rw [hreserved]
    exact Nat.le_trans (h.le side) (hlimit side)
  · intro side
    rw [taken_ending ht, done_ending ht hlen, hreserved]
    by_cases hside : side = c.side
    · simp only [hside, if_true]
      exact (h.tiles c.side).release (by simp [taken, ht, RingThread.taken, hfirst])
    · simpa [hside] using h.tiles side
  · have hslots : (s.runThread t).ring.slots = s.ring.slots := by
      rw [RteRing.slots, hmask, RteRing.slots]
    rw [hslots, hring, RteRing.ring_setTail]
    exact h.content_ending ht
  · intro u
    by_cases he : u = t
    · rw [he, hthreads, Function.update_self]
      trivial
    · rw [hthreads, Function.update_of_ne he]
      refine (h.thread u).frame (by rw [hseen]) hmask (by simp [hreserved]) (by simp [hreserved])
        hlimit ?_ ?_
      · intro side span _ len _
        rw [hring, RteRing.ring_setTail]
      · intro d head' n' ret' moved' hu
        rw [done_ending ht hlen, if_neg (h.side_ne_of_ending ht hu he)]
  · intro u v d e huv hu hv
    exact h.alone u v d e huv (hcalls u d hu) (hcalls v e hv)

theorem Inv.run (h : s.Inv) (hd : s.Disciplined (.run t)) : (s.runThread t).Inv := by
  cases ht : s.threads t with
  | idle =>
    refine h.run_quiet .idle none ?_ (by simp) ?_ ?_ ?_ ?_
    · simp [ht, RingThread.run]
    · simp [ht, RingThread.reserves]
    · simp [RingThread.call]
    · simp [taken, ht, RingThread.taken]
    · intros
      trivial
  | start c => exact h.run_start ht
  | headRead c head => exact h.run_headRead ht
  | admitted c head n room => exact h.run_admitted ht hd
  | copying c head n room moved =>
    by_cases hlt : moved.length < n.toNat
    · cases c with
      | enqueue multi objTable max behavior => exact h.write ht hlt
      | dequeue multi max behavior => exact h.read ht hlt
    · exact h.run_copied ht hlt
  | waiting c head n ret moved => exact h.run_waiting ht
  | ending c head n ret moved => exact h.publish ht

/-- Every step of a thread that keeps to the discipline keeps the invariant. -/
theorem Inv.step (h : s.Inv) {a : RingAction τ α} (hd : s.Disciplined a)
    (hstep : ringStep s a = .ok s') : s'.Inv := by
  cases a with
  | call t c =>
    simp only [ringStep] at hstep
    split at hstep
    next => cases hstep
    next hcall =>
      cases hstep
      exact h.call (by simpa using hcall) hd
  | run t =>
    cases hstep
    exact h.run hd
  | setWaterMark count =>
    cases hstep
    exact h.setWaterMark count

end Step

end RingState

end LearningSwitch
