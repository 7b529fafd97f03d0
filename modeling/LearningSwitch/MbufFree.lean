import LearningSwitch.HeaderPush

namespace LearningSwitch

variable {n : Nat}

/-- Events of the mempools and of single segments. -/
def Event.ofMemory : Event n → Bool
  | .get _ | .getFailed _ | .put _ | .freeSeg _ _ => true
  | _ => false

/-- `w'` follows `w` by memory operations on mbufs that exist: the links between mbufs, the
environment and the past log stay. -/
structure World.FreedTo (w w' : World n) : Prop where
  next : w'.next = w.next
  gets : w'.gets = w.gets
  pick : w'.pick = w.pick
  bursts : w'.bursts = w.bursts
  txRoom : w'.txRoom = w.txRoom
  inFlight : w'.inFlight = w.inFlight
  log : ∃ es, (∀ e ∈ es, e.ofMemory) ∧ w'.log = w.log ++ es

theorem World.FreedTo.refl (w : World n) : w.FreedTo w :=
  ⟨rfl, rfl, rfl, rfl, rfl, rfl, [], by simp, by simp⟩

theorem World.FreedTo.trans {u v w : World n} (h : u.FreedTo v) (h' : v.FreedTo w) :
    u.FreedTo w := by
  obtain ⟨es, hes, hlog⟩ := h.log
  obtain ⟨es', hes', hlog'⟩ := h'.log
  refine ⟨h'.next.trans h.next, h'.gets.trans h.gets, h'.pick.trans h.pick,
    h'.bursts.trans h.bursts, h'.txRoom.trans h.txRoom, h'.inFlight.trans h.inFlight,
    es ++ es', ?_, by rw [hlog', hlog, List.append_assoc]⟩
  intro e he
  rcases List.mem_append.mp he with he | he
  · exact hes e he
  · exact hes' e he

theorem World.FreedTo.emit (w : World n) {e : Event n} (he : e.ofMemory) : w.FreedTo (w.emit e) :=
  ⟨rfl, rfl, rfl, rfl, rfl, rfl, [e], by simpa using he, rfl⟩

theorem World.FreedTo.modify (w : World n) (m : Fin n) {f : Mbuf n → Mbuf n}
    (hf : ∀ b, (f b).pkt.next = b.pkt.next) : w.FreedTo (w.modify m f) := by
  refine ⟨funext fun k => ?_, rfl, rfl, rfl, rfl, rfl, [], by simp, by simp [World.modify]⟩
  by_cases hk : k = m
  · subst hk; simp [World.next, hf]
  · simp [World.next, modify_mbuf_ne _ _ hk]

theorem rawFree_freedTo (w : World n) (m : Fin n) : w.FreedTo (rteMbufRawFree w m) :=
  ⟨rfl, rfl, rfl, rfl, rfl, rfl, [.put m], by simp [Event.ofMemory], rfl⟩

theorem refcntUpdate_freedTo (w : World n) (m : Fin n) (value : UInt16) :
    w.FreedTo (rteMbufRefcntUpdate w m value).2 := by
  unfold rteMbufRefcntUpdate rteMbufRefcntSet
  dsimp only
  apply World.FreedTo.modify
  exact fun _ => rfl

theorem releaseSeg_freedTo (w : World n) (m : Fin n) : w.FreedTo (releaseSeg w m) := by
  have hset : w.FreedTo (rteMbufRefcntSet w m 0) := World.FreedTo.modify w m fun _ => rfl
  unfold releaseSeg
  dsimp only
  split
  next =>
    have hdetach : w.FreedTo (rtePktmbufDetach (rteMbufRefcntSet w m 0) m) :=
      hset.trans (World.FreedTo.modify _ m fun _ => rfl)
    have hdrop := hdetach.trans (refcntUpdate_freedTo _ (w.mbuf m).bufAddr (-1))
    split
    next => exact (hdrop.trans (rawFree_freedTo _ _)).trans (rawFree_freedTo _ _)
    next => exact hdrop.trans (rawFree_freedTo _ _)
  next => exact hset.trans (rawFree_freedTo _ _)

theorem freeSeg_freedTo (w : World n) (m : Fin n) : w.FreedTo (rtePktmbufFreeSeg w m) := by
  have hemit : w.FreedTo (w.emit (.freeSeg m (w.pooled m))) := World.FreedTo.emit w rfl
  unfold rtePktmbufFreeSeg
  dsimp only
  split
  next => exact hemit.trans (releaseSeg_freedTo _ m)
  next =>
    have hdrop := hemit.trans (refcntUpdate_freedTo _ m (-1))
    split
    next => exact hdrop.trans (releaseSeg_freedTo _ m)
    next => exact hdrop

theorem walk_freedTo (fuel : Nat) (w : World n) (m : Option (Fin n)) :
    w.FreedTo (LinkedChain.walk World.next rtePktmbufFreeSeg fuel w m) := by
  induction fuel generalizing w m with
  | zero => exact World.FreedTo.refl w
  | succ fuel ih =>
    cases m with
    | none => exact World.FreedTo.refl w
    | some m => exact (freeSeg_freedTo w m).trans (ih _ _)

/-- `rte_pktmbuf_free` is one call in the log, followed by memory events. -/
theorem free_freedTo (w : World n) (m : Option (Fin n)) :
    (w.emit (.free m)).FreedTo (rtePktmbufFree w m) :=
  walk_freedTo n (w.emit (.free m)) m

def Event.freeCall : Event n → Option (Option (Fin n))
  | .free m => some m
  | _ => none

def freed (log : List (Event n)) : List (Option (Fin n)) :=
  log.filterMap Event.freeCall

theorem World.FreedTo.filterMap_log {w w' : World n} {β : Type} {f : Event n → Option β}
    (h : w.FreedTo w') (hf : ∀ e, e.ofMemory → f e = none) :
    w'.log.filterMap f = w.log.filterMap f := by
  obtain ⟨es, hes, hlog⟩ := h.log
  have hnone : es.filterMap f = [] :=
    List.filterMap_eq_nil_iff.mpr fun e he => hf e (hes e he)
  rw [hlog, List.filterMap_append, hnone, List.append_nil]

theorem freeCall_ofMemory (e : Event n) (h : e.ofMemory) : e.freeCall = none := by
  cases e <;> simp_all [Event.ofMemory, Event.freeCall]

theorem filterMap_emit {β : Type} (f : Event n → Option β) (w : World n) (e : Event n) :
    (w.emit e).log.filterMap f = w.log.filterMap f ++ (f e).toList := by
  rw [World.emit, List.filterMap_append]
  cases h : f e <;> simp [h]

theorem free_log (w : World n) (m : Option (Fin n)) :
    ∃ es, (∀ e ∈ es, e.ofMemory) ∧ (rtePktmbufFree w m).log = w.log ++ .free m :: es ∧
      freed (.free m :: es) = [m] := by
  obtain ⟨es, hes, hlog⟩ := (free_freedTo w m).log
  refine ⟨es, hes, by rw [hlog]; simp [World.emit], ?_⟩
  have hnone : es.filterMap Event.freeCall = [] :=
    List.filterMap_eq_nil_iff.mpr fun e he => freeCall_ofMemory e (hes e he)
  have hfree : Event.freeCall (.free m) = some m := rfl
  rw [freed, List.filterMap_cons_some hfree, hnone]

/-- On a chain that ends in NULL the fuel suffices: every segment is freed once, in order. -/
theorem free_eq_foldl {w : World n} {m : Option (Fin n)} {segs : List (Fin n)}
    (h : LinkedChain.Chain w.next m segs) :
    rtePktmbufFree w m = segs.foldl rtePktmbufFreeSeg (w.emit (.free m)) := by
  have hlen : segs.length ≤ n := by
    simpa using h.nodup.length_le_card
  have hemit : LinkedChain.Chain (w.emit (.free m)).next m segs := h
  exact LinkedChain.walk_eq_foldl (fun s x => (freeSeg_freedTo s x).next) hemit hlen

end LearningSwitch
