import LearningSwitch.EtherType
import LearningSwitch.Pipeline

namespace LearningSwitch

variable {n : Nat}

/-- What becomes of a frame. -/
inductive Verdict
  | forbidden
  | flood
  | drop
  | port (outputPort : UInt8)
deriving DecidableEq

def outputVerdict (outputPort : UInt32) : Verdict :=
  if outputPort = floodPort then .flood
  else if outputPort = dropPacket then .drop
  else .port outputPort.toUInt8

/-- `start_pipeline` up to the point where it acts on the frame: the table it leaves, the verdict,
and the memory in which the verdict is carried out. -/
def pipelineVerdict (sw : Switch n) (w : World n) (m : Fin n) (stray : Stray) :
    Except Fault (L2Switch × Verdict × World n) := do
  let l2 := componentLearn sw.l2 w m stray.srcPad
  match ← sw.ethane.classifyEnforce stray.locals w m with
  | (.stop, w) => .ok (l2, .forbidden, w)
  | (.continue_, w) =>
    let w ← componentRoute l2 w m stray.dstPad
    .ok (l2, outputVerdict (w.read32 m), (rtePktmbufAdj w m 4).2)

def Verdict.perform (sw : Switch n) (w : World n) (m : Fin n) :
    Verdict → Except Fault (Switch n × World n)
  | .forbidden => .ok (sw, w)
  | .flood => do
    let s ← pktFlood ⟨w, sw.qconf⟩ m
    .ok ({ sw with qconf := s.qconf }, s.world)
  | .drop => .ok (sw, rtePktmbufFree w (some m))
  | .port outputPort => do
    let s ← pktSendSingle ⟨w, sw.qconf⟩ m outputPort
    .ok ({ sw with qconf := s.qconf }, s.world)

/-- The table and the verdict, without the memory. -/
def pipelineOutcome (sw : Switch n) (w : World n) (m : Fin n) (stray : Stray) :
    Except Fault (L2Switch × Verdict) :=
  (pipelineVerdict sw w m stray).map fun r => (r.1, r.2.1)

theorem componentOutput_eq_perform (sw : Switch n) (w : World n) (m : Fin n) :
    (componentOutput ⟨w, sw.qconf⟩ m >>= fun s =>
        Except.ok ({ sw with qconf := s.qconf }, s.world)) =
      (outputVerdict (w.read32 m)).perform sw (rtePktmbufAdj w m 4).2 m := by
  unfold componentOutput outputVerdict
  dsimp only
  split
  next => rfl
  next => split <;> rfl

theorem startPipeline_eq_perform (sw : Switch n) (w : World n) (m : Fin n) (stray : Stray) :
    startPipeline sw w m stray = pipelineVerdict sw w m stray >>= fun r =>
      r.2.1.perform { sw with l2 := r.1 } r.2.2 m := by
  unfold startPipeline pipelineVerdict
  dsimp only
  cases sw.ethane.classifyEnforce stray.locals w m with
  | error f => rfl
  | ok r =>
    obtain ⟨verdict, u⟩ := r
    cases verdict with
    | stop => rfl
    | continue_ =>
      simp only [StepRun.ok_bind]
      cases componentRoute (componentLearn sw.l2 w m stray.srcPad) u m stray.dstPad with
      | error f => rfl
      | ok u' =>
        simp only [StepRun.ok_bind]
        exact componentOutput_eq_perform
          { sw with l2 := componentLearn sw.l2 w m stray.srcPad } u' m

theorem Verdict.perform_l2 {sw sw' : Switch n} {w w' : World n} {m : Fin n} {v : Verdict}
    (h : v.perform sw w m = .ok (sw', w')) : sw'.l2 = sw.l2 := by
  cases v with
  | forbidden => cases h; rfl
  | flood =>
    obtain ⟨s, _, h⟩ := StepRun.bind_eq_ok.mp h
    cases h
    rfl
  | drop => cases h; rfl
  | port outputPort =>
    obtain ⟨s, _, h⟩ := StepRun.bind_eq_ok.mp h
    cases h
    rfl

theorem performs_of_outcome {sw : Switch n} {w : World n} {m : Fin n} {stray : Stray}
    {l2 : L2Switch} {v : Verdict} (h : pipelineOutcome sw w m stray = .ok (l2, v)) :
    ∃ u, startPipeline sw w m stray = v.perform { sw with l2 := l2 } u m := by
  rw [startPipeline_eq_perform]
  unfold pipelineOutcome at h
  cases hverdict : pipelineVerdict sw w m stray with
  | error f => rw [hverdict] at h; cases h
  | ok r =>
    rw [hverdict] at h
    cases h
    exact ⟨r.2.2, rfl⟩

theorem outcome_of_startPipeline {sw sw' : Switch n} {w w' : World n} {m : Fin n} {stray : Stray}
    (h : startPipeline sw w m stray = .ok (sw', w')) :
    ∃ v, pipelineOutcome sw w m stray = .ok (sw'.l2, v) := by
  rw [startPipeline_eq_perform] at h
  obtain ⟨r, hverdict, hperform⟩ := StepRun.bind_eq_ok.mp h
  refine ⟨r.2.1, ?_⟩
  rw [pipelineOutcome, hverdict, Verdict.perform_l2 hperform]
  rfl

/-- The frame behind Ethane starts with the same bytes as the frame before it, also where the
length was so large that pushing the header made it wrap. -/
theorem adj_pushHeader_byte {w₁ w₂ : World n} {m₁ m₂ : Fin n} {k : Nat}
    (hd₁ : 4 ≤ rtePktmbufHeadroom w₁ m₁) (hd₂ : 4 ≤ rtePktmbufHeadroom w₂ m₂)
    (hlen : (w₁.mbuf m₁).pkt.dataLen = (w₂.mbuf m₂).pkt.dataLen)
    (hbytes : ∀ i < k, w₁.byte m₁ i = w₂.byte m₂ i) (x : UInt32) {i : Nat} (hi : i < k) :
    (rtePktmbufAdj (pushHeader w₁ m₁ x) m₁ 4).2.byte m₁ i =
      (rtePktmbufAdj (pushHeader w₂ m₂ x) m₂ 4).2.byte m₂ i := by
  simp only [adj_byte, pushHeader_dataLen_eq hd₁, pushHeader_dataLen_eq hd₂, hlen,
    pushHeader_byte hd₁, pushHeader_byte hd₂]
  split
  next =>
    split
    next => rfl
    next => exact hbytes (i - 4) (by omega)
  next =>
    rw [if_neg (by omega), if_neg (by omega)]
    exact hbytes (4 + i - 4) (by omega)

/-- The outcome as the class and the output port decide it. -/
theorem pipelineOutcome_eq (sw : Switch n) (w : World n) (m : Fin n) (stray : Stray) :
    pipelineOutcome sw w m stray = sw.ethane.classOf stray.locals (w.byte m) >>= fun x =>
      if x = classAllow then
        (componentLearn sw.l2 w m stray.srcPad).find
            (rtePktmbufAdj (pushHeader w m classAllow) m 4).2 m stray.dstPad >>= fun port =>
          .ok (componentLearn sw.l2 w m stray.srcPad, outputVerdict port)
      else .ok (componentLearn sw.l2 w m stray.srcPad, .forbidden) := by
  unfold pipelineOutcome pipelineVerdict
  rw [sw.ethane.classifyEnforce_eq_classOf]
  cases sw.ethane.classOf stray.locals (w.byte m) with
  | error f => rfl
  | ok x =>
    simp only [StepRun.ok_bind]
    by_cases hx : x = classAllow
    · subst hx
      rw [enforce_allow, if_pos rfl]
      dsimp only
      rw [componentRoute]
      cases (componentLearn sw.l2 w m stray.srcPad).find
          (rtePktmbufAdj (pushHeader w m classAllow) m 4).2 m stray.dstPad with
      | error f => rfl
      | ok port =>
        simp only [StepRun.ok_bind, pushHeader_read32]
        rfl
    · have hstop := enforce_fst w m x
      rw [if_neg hx] at hstop ⊢
      generalize enforce (pushHeader w m x) m = r at hstop ⊢
      obtain ⟨verdict, u⟩ := r
      cases hstop
      rfl

/-- Two received frames with equal metadata and equal bytes up to their length. -/
structure SameFrame (w₁ : World n) (m₁ : Fin n) (w₂ : World n) (m₂ : Fin n) : Prop where
  inPort : (w₁.mbuf m₁).pkt.inPort = (w₂.mbuf m₂).pkt.inPort
  dataLen : (w₁.mbuf m₁).pkt.dataLen = (w₂.mbuf m₂).pkt.dataLen
  pktLen : (w₁.mbuf m₁).pkt.pktLen = (w₂.mbuf m₂).pkt.pktLen
  headroom : 4 ≤ rtePktmbufHeadroom w₁ m₁ ∧ 4 ≤ rtePktmbufHeadroom w₂ m₂
  payload : ∀ i < (w₁.mbuf m₁).pkt.dataLen.toNat, w₁.byte m₁ i = w₂.byte m₂ i

/-- The bytes at which the pipeline reads a frame, whatever its length: both addresses of the
Ethernet header, and the two that an IPv4 header behind it would hold. -/
def ReadAt (i : Nat) : Prop := i < 12 ∨ 26 ≤ i ∧ i < 34

theorem SameFrame.outcome {w₁ w₂ : World n} {m₁ m₂ : Fin n} (h : SameFrame w₁ m₁ w₂ m₂)
    (hread : ∀ i, ReadAt i → w₁.byte m₁ i = w₂.byte m₂ i) (sw : Switch n) {stray₁ stray₂ : Stray}
    (hsrc : stray₁.srcPad = stray₂.srcPad) (hdst : stray₁.dstPad = stray₂.dstPad) :
    pipelineOutcome sw w₁ m₁ stray₁ = pipelineOutcome sw w₂ m₂ stray₂ := by
  have hsAddr : w₁.sAddr m₁ = w₂.sAddr m₂ := by
    funext i
    exact hread (6 + i) (Or.inl (by omega))
  have hclass := sw.ethane.classOf_congr (fun i hl hr => hread i (Or.inr ⟨hl, hr⟩))
    stray₁.locals stray₂.locals
  have hdAddr : (rtePktmbufAdj (pushHeader w₁ m₁ classAllow) m₁ 4).2.dAddr m₁ =
      (rtePktmbufAdj (pushHeader w₂ m₂ classAllow) m₂ 4).2.dAddr m₂ := by
    funext i
    exact adj_pushHeader_byte h.headroom.1 h.headroom.2 h.dataLen
      (fun j hj => hread j (Or.inl (by omega : j < 12))) classAllow i.isLt
  have hlearn := componentLearn_congr sw.l2 h.inPort hsAddr stray₂.srcPad
  rw [pipelineOutcome_eq, pipelineOutcome_eq, hclass, hsrc, hdst, hlearn]
  simp only [L2Switch.find_congr _ hdAddr]

/-- Two runs on frames that agree up to their length, and behind it at the bytes that the pipeline
reads all the same, leave the same table and carry out the same verdict. -/
theorem startPipeline_staleBytes (sw : Switch n) {w₁ w₂ : World n} {m₁ m₂ : Fin n}
    (h : SameFrame w₁ m₁ w₂ m₂)
    (hstale : ∀ i, (w₁.mbuf m₁).pkt.dataLen.toNat ≤ i → ReadAt i → w₁.byte m₁ i = w₂.byte m₂ i)
    {stray₁ stray₂ : Stray} (hsrc : stray₁.srcPad = stray₂.srcPad)
    (hdst : stray₁.dstPad = stray₂.dstPad) :
    pipelineOutcome sw w₁ m₁ stray₁ = pipelineOutcome sw w₂ m₂ stray₂ ∧
    (∀ l2 v, pipelineOutcome sw w₁ m₁ stray₁ = .ok (l2, v) → ∃ u₁ u₂,
      startPipeline sw w₁ m₁ stray₁ = v.perform { sw with l2 := l2 } u₁ m₁ ∧
      startPipeline sw w₂ m₂ stray₂ = v.perform { sw with l2 := l2 } u₂ m₂) ∧
    ∀ sw₁ u₁ sw₂ u₂, startPipeline sw w₁ m₁ stray₁ = .ok (sw₁, u₁) →
      startPipeline sw w₂ m₂ stray₂ = .ok (sw₂, u₂) → sw₁.l2 = sw₂.l2 := by
  have hread : ∀ i, ReadAt i → w₁.byte m₁ i = w₂.byte m₂ i := by
    intro i hi
    rcases Nat.lt_or_ge i (w₁.mbuf m₁).pkt.dataLen.toNat with hlt | hge
    · exact h.payload i hlt
    · exact hstale i hge hi
  have houtcome := h.outcome hread sw hsrc hdst
  refine ⟨houtcome, fun l2 v hok => ?_, fun sw₁ u₁ sw₂ u₂ hrun₁ hrun₂ => ?_⟩
  · obtain ⟨u₁, hrun₁⟩ := performs_of_outcome hok
    obtain ⟨u₂, hrun₂⟩ := performs_of_outcome (houtcome ▸ hok)
    exact ⟨u₁, u₂, hrun₁, hrun₂⟩
  · obtain ⟨v₁, hok₁⟩ := outcome_of_startPipeline hrun₁
    obtain ⟨v₂, hok₂⟩ := outcome_of_startPipeline hrun₂
    rw [houtcome, hok₂] at hok₁
    exact (congrArg Prod.fst (Except.ok.inj hok₁)).symm

/-- A frame in a data room that held `stale` bytes before. -/
def frameOver (stale : UInt8) (bytes : List UInt8) : World 1 :=
  (rxChain (initEal (fun _ => .packet) (fun _ => none) fun _ => 0) 3
    [(Fin.last 0, bytes)]).modify (Fin.last 0) fun b =>
      { b with room := fun j => if j < b.pkt.data + bytes.length then b.room j else stale }

theorem frameOver_byte (stale : UInt8) (bytes : List UInt8) (i : Nat) :
    (frameOver stale bytes).byte 0 i = if i < bytes.length then bytes.getD i 0 else stale := by
  show (if 128 + i < 128 + bytes.length then
    if 128 ≤ 128 + i then bytes.getD (128 + i - 128) 0 else 0 else stale) = _
  simp

theorem frameOver_same (stale stale' : UInt8) {bytes : List UInt8} (h : bytes.length < 65536) :
    SameFrame (frameOver stale bytes) 0 (frameOver stale' bytes) 0 where
  inPort := rfl
  dataLen := rfl
  pktLen := rfl
  headroom := by
    have h128 : (4 : UInt16) ≤ 128 := by decide
    exact ⟨h128, h128⟩
  payload := by
    intro i hi
    have hlen : ((frameOver stale bytes).mbuf 0).pkt.dataLen.toNat = bytes.length :=
      UInt16.toNat_ofNat_of_lt' h
    rw [hlen] at hi
    rw [frameOver_byte, frameOver_byte, if_pos hi, if_pos hi]

theorem startPipeline_staleBytes_ipv4 :
    pipelineOutcome (.boot (componentEthaneInit .empty))
        (frameOver 1 (List.replicate 34 7)) 0 .zero =
      pipelineOutcome (.boot (componentEthaneInit .empty))
        (frameOver 2 (List.replicate 34 7)) 0 .zero := by
  refine (startPipeline_staleBytes (.boot (componentEthaneInit .empty))
    (frameOver_same 1 2 (by decide : (List.replicate 34 7).length < 65536)) ?_ rfl rfl).1
  intro i hge hread
  have hlen : ((frameOver 1 (List.replicate 34 7)).mbuf 0).pkt.dataLen.toNat = 34 := by decide
  unfold ReadAt at hread
  omega

/-- A frame without a byte is learned and routed by what the buffer held before. -/
theorem not_staleBytes :
    ¬∀ (sw : Switch 1) (w₁ w₂ : World 1) (m₁ m₂ : Fin 1) (stray : Stray),
      SameFrame w₁ m₁ w₂ m₂ →
        pipelineOutcome sw w₁ m₁ stray = pipelineOutcome sw w₂ m₂ stray := by
  intro h
  have hsame := h (.boot .empty) _ _ 0 0 .zero
    (frameOver_same 1 0xFF (by decide : [].length < 65536))
  have hsnd := congrArg (fun r => r.map Prod.snd) hsame
  have hport : (pipelineOutcome (.boot .empty) (frameOver 1 []) 0 .zero).map Prod.snd =
      .ok (.port 3) := by decide +kernel
  have hflood : (pipelineOutcome (.boot .empty) (frameOver 0xFF []) 0 .zero).map Prod.snd =
      .ok .flood := by decide +kernel
  rw [hport, hflood] at hsnd
  cases hsnd

end LearningSwitch
