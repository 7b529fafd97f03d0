import LearningSwitch.FieldWidth
import LearningSwitch.FirstMatch

namespace LearningSwitch

/-- A stage whose numbers all fit the bit set ends every lookup of a field that the copy fits. -/
theorem MatchExact.Holds.find_ends {M : Match} {s : MatchExact M} {keys : List (KeyType M)}
    (h : s.Holds keys) (hs : 4 ≤ M.sizeT) (hlen : keys.length ≤ maxTableSize) (field : KeyType M)
    (my bits : BitSetT) (packet : Packet) : ∃ out, s.find field my bits packet = .ok out := by
  rcases (holds_iff_indexes.mp h).find hs field packet with ⟨_, _, hrun, _⟩ | ⟨i, hi, hlarge, _⟩
  · exact ⟨_, hrun my bits⟩
  · obtain ⟨hbound, _⟩ := List.getElem?_eq_some_iff.mp hi
    omega

namespace Classifier

variable {M : Match} {Ms : List Match}

/-- Every lookup ends: none throws `std::out_of_range`, none reads outside the bit set, and none
overruns a key array. -/
def LookupsInBounds (c : ExactClassifier M Ms) : Prop :=
  ∀ (ls : ExactLocals M Ms) (packet : Packet), ∃ slot, c.find ls packet = .ok slot

theorem findBits_ok {c : ExactClassifier M Ms} {rules : List (ExactFields M Ms)}
    (h : c.Holds rules) (hs : ∀ N ∈ M :: Ms, 4 ≤ N.sizeT) (hlen : rules.length ≤ maxTableSize)
    (ls : ExactLocals M Ms) (bits : BitSetT) (packet : Packet) :
    ∃ out, c.findBits ls bits packet = .ok out := by
  induction Ms generalizing M bits with
  | nil =>
    obtain ⟨⟨found, my, bits'⟩, hstage⟩ := MatchExact.Holds.find_ends h (hs M List.mem_cons_self)
      (by simpa using hlen) ls (.ofNat maxTableSize c.ruleCounter) bits packet
    cases found with
    | false => exact ⟨bits', StepRun.bind_eq_ok.mpr ⟨_, hstage, rfl⟩⟩
    | true => exact ⟨bits' &&& my, StepRun.bind_eq_ok.mpr ⟨_, hstage, rfl⟩⟩
  | cons N Ns ih =>
    obtain ⟨⟨found, my, bits'⟩, hstage⟩ := MatchExact.Holds.find_ends h.1 (hs M List.mem_cons_self)
      (by simpa using hlen) ls.1 (.ofNat maxTableSize c.ruleCounter) bits packet
    cases found with
    | false => exact ⟨bits', StepRun.bind_eq_ok.mpr ⟨_, hstage, rfl⟩⟩
    | true =>
      obtain ⟨out, hnext⟩ := ih h.2 (fun L hL => hs L (List.mem_cons_of_mem M hL))
        (by simpa using hlen) ls.2 bits'
      refine ⟨out &&& my, StepRun.bind_eq_ok.mpr ⟨_, hstage, ?_⟩⟩
      exact StepRun.bind_eq_ok.mpr ⟨out, hnext, rfl⟩

theorem exists_outerLocal (Ms : List Match) (field : KeyType M) :
    ∃ ls : ExactLocals M Ms, outerLocal ls = field := by
  induction Ms generalizing M with
  | nil => exact ⟨field, rfl⟩
  | cons N Ns ih =>
    obtain ⟨inner, _⟩ := ih (M := N) fun _ => 0
    exact ⟨(field, inner), rfl⟩

/-- The rule that comes after `MAX_TABLE_SIZE` others makes the lookup of a packet that carries
its first field throw. -/
theorem Installed.find_outOfRange {c : ExactClassifier M Ms} {rules : List (ExactFields M Ms)}
    (h : c.Installed rules) (hs : 4 ≤ M.sizeT) (hlen : maxTableSize < rules.length) :
    ∃ ls packet pos, c.find ls packet = .error (.outOfRange pos) := by
  let key := ExactFields.outer rules[maxTableSize]
  obtain ⟨packet, hpacket⟩ := M.exists_field key
  obtain ⟨ls, hls⟩ := exists_outerLocal Ms key
  have hkey : M.overlay key packet = key :=
    M.overlay_eq_self (hpacket ▸ M.field_begins packet)
  have hlast : (rules.map ExactFields.outer)[maxTableSize]? = some key := by
    rw [List.getElem?_map, List.getElem?_eq_getElem hlen]
    rfl
  have hstage := (MatchExact.holds_iff_indexes.mp h.holds.outer).find hs key packet
  rw [hkey] at hstage
  rcases hstage with ⟨_, selected, _, _, _, hbits⟩ | ⟨_, _, _, hthrow⟩
  · have hbound := BitVec.lt_of_getLsbD ((hbits maxTableSize).mpr hlast)
    omega
  · obtain ⟨pos, hpos⟩ :=
      hthrow (.ofNat maxTableSize c.ruleCounter) (~~~BitVec.ofNat maxTableSize 0)
    refine ⟨ls, packet, pos, ?_⟩
    rw [← hls] at hpos
    rw [Classifier.find, findBits_outer_error hpos, StepRun.error_bind]

/-- With at most `MAX_TABLE_SIZE` rules every lookup ends. -/
theorem Installed.find_ok {c : ExactClassifier M Ms} {rules : List (ExactFields M Ms)}
    (h : c.Installed rules) (hs : ∀ N ∈ M :: Ms, 4 ≤ N.sizeT)
    (hlen : rules.length ≤ maxTableSize) : c.LookupsInBounds := by
  intro ls packet
  obtain ⟨bits, hbits⟩ := findBits_ok h.holds hs hlen ls (~~~BitVec.ofNat maxTableSize 0) packet
  have hbound : ∀ i ∈ List.range c.ruleCounter, i < maxTableSize := by
    intro i hi
    have := List.mem_range.mp hi
    have := h.counter
    omega
  exact ⟨_, StepRun.bind_eq_ok.mpr ⟨bits, hbits, scan_eq_find? hbound⟩⟩

/-- Lookups stay within the bit set exactly when no more rules were added than it has bits. Every
field holds the four bytes that `find` copies. -/
theorem lookupsInBounds_iff (hs : ∀ N ∈ M :: Ms, 4 ≤ N.sizeT) (rules : List (ExactFields M Ms)) :
    ((empty : ExactClassifier M Ms).addRules rules).LookupsInBounds ↔
      rules.length ≤ maxTableSize := by
  have hinst := installed_empty.addRules rules
  rw [List.nil_append] at hinst
  constructor
  · intro h
    by_contra hnot
    obtain ⟨ls, packet, pos, hthrow⟩ :=
      hinst.find_outOfRange (hs M List.mem_cons_self) (Nat.lt_of_not_le hnot)
    obtain ⟨slot, hslot⟩ := h ls packet
    rw [hthrow] at hslot
    cases hslot
  · exact hinst.find_ok hs

def tens : ExactFields ⟨4, 26⟩ [⟨4, 30⟩] := (fun _ => 10, fun _ => 10)

theorem lookupsInBounds_iff_tens :
    (empty.addRules [tens, tens]).LookupsInBounds ↔ 2 ≤ maxTableSize :=
  lookupsInBounds_iff (by decide) [tens, tens]

theorem not_lookupsInBounds :
    ¬(empty.addRules (List.replicate (maxTableSize + 1) tens)).LookupsInBounds := by
  intro h
  have hinst := installed_empty.addRules (List.replicate (maxTableSize + 1) tens)
  rw [List.nil_append] at hinst
  obtain ⟨ls, packet, pos, hthrow⟩ := hinst.find_outOfRange (by decide) (by
    rw [List.length_replicate]
    omega)
  obtain ⟨slot, hslot⟩ := h ls packet
  rw [hthrow] at hslot
  cases hslot

end Classifier

end LearningSwitch
