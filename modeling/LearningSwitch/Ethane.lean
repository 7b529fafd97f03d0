import LearningSwitch.FirstMatch
import LearningSwitch.MbufFree

namespace LearningSwitch

inductive Pipeline
  | continue_
  | stop
deriving DecidableEq

def classAllow : UInt32 := 0

def classForbid : UInt32 := 1

def actionClassify : Nat := 1

/-- `ipv4_hdr::src_addr` behind an `ether_hdr`. -/
abbrev srcMatch : Match := ⟨4, 26⟩

abbrev dstMatch : Match := ⟨4, 30⟩

/-- The source and destination address of a rule, as bytes. -/
abbrev AddressPair := ExactFields srcMatch [dstMatch]

structure Ethane where
  classifier : ExactClassifier srcMatch [dstMatch]

def Ethane.empty : Ethane where
  classifier := .empty

def ipv4 (a b c d : UInt8) : UInt32 :=
  a.toUInt32 <<< (24 : UInt32) ||| b.toUInt32 <<< (16 : UInt32) ||| c.toUInt32 <<< (8 : UInt32) |||
    d.toUInt32

/-- `be32toh` on a little-endian machine. -/
def be32toh (x : UInt32) : UInt32 :=
  (x &&& 0xff) <<< (24 : UInt32) ||| (x &&& 0xff00) <<< (8 : UInt32) |||
    x >>> (8 : UInt32) &&& 0xff00 ||| x >>> (24 : UInt32)

/-- `AddressUnion::array_` after a store to `int_`. -/
def addressArray (int_ : UInt32) : Fin 4 → UInt8 :=
  fun i => .ofNat (int_.toNat / 256 ^ i.val)

def initPair : AddressPair :=
  (addressArray (be32toh (ipv4 10 10 10 11)), addressArray (be32toh (ipv4 10 10 10 12)))

/-- The accesses that installing a rule makes to the shared classifier. -/
inductive RuleStep
  | addRule (pair : AddressPair)
  | setType (slot type_ : Nat)
  | setCallback (slot : Nat) (callback : Callback)

def Ethane.apply (e : Ethane) : RuleStep → Ethane
  | .addRule pair => { e with classifier := (e.classifier.addRule pair).2 }
  | .setType slot type_ =>
    { e with classifier := e.classifier.setAction slot fun a => { a with type_ := type_ } }
  | .setCallback slot callback =>
    { e with classifier := e.classifier.setAction slot fun a => { a with callback := some callback } }

def componentEthaneInit (e : Ethane) : Ethane :=
  let slot := (e.classifier.addRule initPair).1
  let e := e.apply (.addRule initPair)
  let e := e.apply (.setType slot actionClassify)
  e.apply (.setCallback slot .actionClassifyForbidden)

variable {n : Nat}

def actionClassifyForbidden (w : World n) (m : Fin n) : Pipeline × World n :=
  (.continue_, pushHeader w m classForbid)

def Callback.call (cb : Callback) (w : World n) (m : Fin n) : Pipeline × World n :=
  match cb with
  | .actionClassifyForbidden => LearningSwitch.actionClassifyForbidden w m

/-- `Classify::component`. The packet handed to `find` starts at `m->pkt.data`. -/
def Ethane.classify (e : Ethane) (ls : ExactLocals srcMatch [dstMatch]) (w : World n) (m : Fin n) :
    Except Fault (Pipeline × World n) := do
  match ← e.classifier.find ls (w.byte m) with
  | some slot =>
    match (e.classifier.actionTable slot).callback with
    | none => .error .nullCall
    | some cb => .ok (cb.call w m)
  | none => .ok (.continue_, pushHeader w m classAllow)

def enforce (w : World n) (m : Fin n) : Pipeline × World n :=
  let class_ := w.read32 m
  if class_ = classAllow then (.continue_, (rtePktmbufAdj w m 4).2)
  else if class_ = classForbid then (.stop, rtePktmbufFree w (some m))
  else (.stop, rtePktmbufFree (w.emit (.print "Unknown classification.\n")) (some m))

/-- `Classify::component` and, unless it stops the pipeline, `Enforce::component`. -/
def Ethane.classifyEnforce (e : Ethane) (ls : ExactLocals srcMatch [dstMatch]) (w : World n)
    (m : Fin n) : Except Fault (Pipeline × World n) := do
  match ← e.classify ls w m with
  | (.stop, w) => .ok (.stop, w)
  | (.continue_, w) => .ok (enforce w m)

def addedPairs (steps : List RuleStep) : List AddressPair :=
  steps.filterMap fun
    | .addRule pair => some pair
    | _ => none

theorem apply_installed {e : Ethane} {pairs : List AddressPair}
    (h : e.classifier.Installed pairs) (step : RuleStep) :
    (e.apply step).classifier.Installed (pairs ++ addedPairs [step]) := by
  cases step with
  | addRule pair => exact h.addRule pair
  | setType slot type_ =>
    rw [addedPairs, List.filterMap_cons, List.filterMap_nil, List.append_nil]
    exact h.setAction slot _
  | setCallback slot callback =>
    rw [addedPairs, List.filterMap_cons, List.filterMap_nil, List.append_nil]
    exact h.setAction slot _

theorem foldl_apply_installed {e : Ethane} {pairs : List AddressPair}
    (h : e.classifier.Installed pairs) (steps : List RuleStep) :
    (steps.foldl Ethane.apply e).classifier.Installed (pairs ++ addedPairs steps) := by
  induction steps generalizing e pairs with
  | nil => simpa [addedPairs] using h
  | cons step steps ih =>
    have hstep := ih (apply_installed h step)
    rw [List.append_assoc] at hstep
    have hpairs : addedPairs [step] ++ addedPairs steps = addedPairs (step :: steps) := by
      rw [addedPairs, addedPairs, ← List.filterMap_append]
      rfl
    rw [List.foldl_cons, ← hpairs]
    exact hstep

/-- The frame carries the addresses of the pair. -/
def Carries (w : World n) (m : Fin n) (pair : AddressPair) : Prop :=
  FieldsEqual (w.byte m) pair

instance (w : World n) (m : Fin n) (pair : AddressPair) : Decidable (Carries w m pair) :=
  inferInstanceAs (Decidable (FieldsEqual (w.byte m) pair))

/-- The pairs are installed and every slot carries the forbidding action. -/
structure Ethane.Forbids (e : Ethane) (pairs : List AddressPair) : Prop where
  installed : e.classifier.Installed pairs
  callback : ∀ slot < pairs.length,
    (e.classifier.actionTable slot).callback = some .actionClassifyForbidden

theorem Ethane.Forbids.init {e : Ethane} {pairs : List AddressPair} (h : e.Forbids pairs) :
    (componentEthaneInit e).Forbids (pairs ++ [initPair]) := by
  have hslot : (e.classifier.addRule initPair).1 = pairs.length := by
    rw [Classifier.addRule_slot, h.installed.counter]
  refine ⟨((h.installed.addRule initPair).setAction _ _).setAction _ _, fun slot hs => ?_⟩
  rw [componentEthaneInit]
  simp only [Ethane.apply, Classifier.actionTable_setAction, Classifier.actionTable_addRule, hslot]
  by_cases hp : slot = pairs.length
  · simp [hp]
  · have hlow : slot < pairs.length := by simp at hs; omega
    simp [hp, h.callback slot hlow]

/-- Classification pushes one word, which says whether an installed pair is on the frame. -/
theorem Ethane.Forbids.classify {e : Ethane} {pairs : List AddressPair} (h : e.Forbids pairs)
    (hlen : pairs.length ≤ maxTableSize) (ls : ExactLocals srcMatch [dstMatch]) (w : World n)
    (m : Fin n) :
    e.classify ls w m = .ok (.continue_, pushHeader w m
      (if ∃ pair ∈ pairs, Carries w m pair then classForbid else classAllow)) := by
  have hfind := h.installed.find_eq_findIdx? (by simp) hlen ls (w.byte m)
  rw [Ethane.classify, hfind, StepRun.ok_bind]
  cases hidx : pairs.findIdx? fun fields => decide (FieldsEqual (w.byte m) fields) with
  | none =>
    have hno : ¬ ∃ pair ∈ pairs, Carries w m pair := by
      intro hany
      obtain ⟨pair, hp, hc⟩ := hany
      have hmiss := List.findIdx?_eq_none_iff.mp hidx pair hp
      exact absurd hc (of_decide_eq_false hmiss)
    rw [if_neg hno]
  | some slot =>
    obtain ⟨hs, hmatch, _⟩ := List.findIdx?_eq_some_iff_getElem.mp hidx
    have hyes : ∃ pair ∈ pairs, Carries w m pair :=
      ⟨pairs[slot], List.getElem_mem hs, of_decide_eq_true hmatch⟩
    simp only [h.callback slot hs, Callback.call, LearningSwitch.actionClassifyForbidden, if_pos hyes]

/-- A lookup that returns, over any number of pairs, has classified the frame by them. -/
theorem Ethane.Forbids.classify_ok {e : Ethane} {pairs : List AddressPair} (h : e.Forbids pairs)
    {ls : ExactLocals srcMatch [dstMatch]} {w : World n} {m : Fin n} {r : Pipeline × World n}
    (hrun : e.classify ls w m = .ok r) : r = (.continue_, pushHeader w m
      (if ∃ pair ∈ pairs, Carries w m pair then classForbid else classAllow)) := by
  by_cases hlen : pairs.length ≤ maxTableSize
  · rw [h.classify hlen] at hrun
    exact (Except.ok.inj hrun).symm
  · obtain ⟨found, hfind, hrest⟩ := StepRun.bind_eq_ok.mp hrun
    cases found with
    | none => exact absurd (h.installed.find_none hfind) hlen
    | some slot =>
      obtain ⟨pair, hpair, hcarry⟩ := h.installed.find_some (by simp) hfind
      have hslot := (List.getElem?_eq_some_iff.mp hpair).1
      have hyes : ∃ pair ∈ pairs, Carries w m pair :=
        ⟨pair, List.mem_of_getElem? hpair, hcarry⟩
      simp only [h.callback slot hslot] at hrest
      rw [if_pos hyes]
      exact (Except.ok.inj hrest).symm

end LearningSwitch
