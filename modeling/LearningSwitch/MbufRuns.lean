import LearningSwitch.MbufUse
import LearningSwitch.StepRun

namespace LearningSwitch

open LinkedChain RefCount

variable {n : Nat}

/-- Calls of those who hold packets, and the arrival of a frame. -/
inductive MbufCall (n : Nat)
  | alloc (mp : Pool)
  | receive (inPort : UInt8) (m : Fin n) (bytes : List UInt8) (rest : List (Fin n × List UInt8))
  | clone (md : Fin n) (mp : Pool)
  | duplicate (pkt : Fin n) (useClone : UInt32)
  | free (m : Fin n)

/-- The memory, and the first mbufs of the packets that were handed out and not yet freed. -/
structure MbufUse (n : Nat) where
  world : World n
  pkts : List (Fin n)

/-- The segments of the packet that starts in `m`. -/
def World.segments (w : World n) (m : Fin n) : List (Fin n) :=
  collect w.next n (some m)

def MbufUse.users (s : MbufUse n) : List (Fin n) :=
  s.pkts.flatMap s.world.segments

def MbufUse.grant (s : MbufUse n) (r : Option (Fin n) × World n) : MbufUse n where
  world := r.2
  pkts := r.1.toList ++ s.pkts

def mbufStep (s : MbufUse n) : MbufCall n → Except Fault (MbufUse n)
  | .alloc mp => .ok (s.grant (rtePktmbufAlloc s.world mp))
  | .receive inPort m bytes rest =>
    .ok (s.grant (some m, rxChain s.world inPort ((m, bytes) :: rest)))
  | .clone md mp => .ok (s.grant (rtePktmbufClone s.world md mp))
  | .duplicate pkt useClone => .ok (s.grant (pktDuplicate s.world pkt useClone))
  | .free m => .ok { world := rtePktmbufFree s.world (some m), pkts := s.pkts.erase m }

/-- `md` heads a packet in use whose segments are direct, and have room for one more reference in
their counters of 16 bits. -/
def MbufUse.Clonable (s : MbufUse n) (md : Fin n) : Prop :=
  md ∈ s.pkts ∧ ∀ x ∈ s.world.segments md,
    s.world.target x = x ∧ (s.world.mbuf x).refcnt ≠ 0xffff

/-- What the callers owe: drivers fill mbufs that lie in a pool, nobody clones a clone or an mbuf
with 65535 references, and only packets in use are freed. A header over a packet that is not cloned
would share its segments without a count. -/
def MbufUse.Owes (s : MbufUse n) : MbufCall n → Prop
  | .alloc _ => True
  | .receive _ m bytes rest => (((m, bytes) :: rest).map Prod.fst).Nodup ∧
      ∀ x ∈ ((m, bytes) :: rest).map Prod.fst, s.world.pooled x = true
  | .clone md _ => s.Clonable md
  | .duplicate pkt useClone => useClone ≠ 0 ∧ s.Clonable pkt
  | .free m => m ∈ s.pkts

instance (s : MbufUse n) (md : Fin n) : Decidable (s.Clonable md) :=
  inferInstanceAs (Decidable (_ ∧ _))

instance (s : MbufUse n) : ∀ call, Decidable (s.Owes call)
  | .alloc _ => isTrue trivial
  | .receive _ _ _ _ => inferInstanceAs (Decidable (_ ∧ _))
  | .clone _ _ => inferInstanceAs (Decidable (_ ∧ _))
  | .duplicate _ _ => inferInstanceAs (Decidable (_ ∧ _))
  | .free _ => inferInstanceAs (Decidable (_ ∈ _))

structure MbufUse.Inv (s : MbufUse n) : Prop where
  chain : ∀ m ∈ s.pkts, Chain s.world.next (some m) (s.world.segments m)
  counted : s.world.Counted s.users

theorem segments_eq {w : World n} {m : Fin n} {segs : List (Fin n)}
    (h : Chain w.next (some m) segs) : w.segments m = segs :=
  h.collect_eq (by simpa using h.nodup.length_le_card)

section Inv

variable {s : MbufUse n} {w' : World n}

theorem MbufUse.mem_users {m x : Fin n} (hm : m ∈ s.pkts) (hx : x ∈ s.world.segments m) :
    x ∈ s.users :=
  List.mem_flatMap.mpr ⟨m, hm, hx⟩

theorem MbufUse.Clonable.sharable {md x : Fin n} (h : s.Clonable md)
    (hx : x ∈ s.world.segments md) : s.world.Sharable s.users x := by
  obtain ⟨hdirect, hroom⟩ := h.2 x hx
  exact ⟨MbufUse.mem_users h.1 hx, hdirect, hroom⟩

/-- While the links of the packets in use stay, so do the packets. -/
theorem MbufUse.Inv.segments (h : s.Inv) (hnext : ∀ k ∈ s.users, w'.next k = s.world.next k)
    {m : Fin n} (hm : m ∈ s.pkts) : Chain w'.next (some m) (s.world.segments m) ∧
      w'.segments m = s.world.segments m := by
  have hchain : Chain w'.next (some m) (s.world.segments m) :=
    (h.chain m hm).congr fun k hk => hnext k (MbufUse.mem_users hm hk)
  exact ⟨hchain, segments_eq hchain⟩

theorem MbufUse.Inv.grant (h : s.Inv) {r : Option (Fin n) × World n}
    (hr : s.world.Grants s.users r) : (s.grant r).Inv := by
  obtain ⟨_ | m, w'⟩ := r
  · obtain ⟨hcounted, hnext⟩ := hr
    have husers : (s.grant (none, w')).users = s.users :=
      List.flatMap_congr fun m hm => (h.segments hnext hm).2
    refine ⟨fun m hm => ?_, by rw [husers]; exact hcounted⟩
    obtain ⟨hchain, hsegs⟩ := h.segments hnext hm
    exact hsegs ▸ hchain
  · obtain ⟨segs, hcounted, hnew, hnext⟩ := hr
    have husers : (s.grant (some m, w')).users = segs ++ s.users := by
      show w'.segments m ++ s.pkts.flatMap w'.segments = _
      rw [segments_eq hnew, List.flatMap_congr fun m hm => (h.segments hnext hm).2]
      rfl
    refine ⟨fun k hk => ?_, by rw [husers]; exact hcounted⟩
    rcases List.mem_cons.mp hk with rfl | hk
    · exact (segments_eq hnew).symm ▸ hnew
    · obtain ⟨hchain, hsegs⟩ := h.segments hnext hk
      exact hsegs ▸ hchain

theorem MbufUse.Inv.free (h : s.Inv) {m : Fin n} (hm : m ∈ s.pkts) :
    MbufUse.Inv { world := rtePktmbufFree s.world (some m), pkts := s.pkts.erase m } := by
  have hperm : s.users.Perm (s.world.segments m ++ (s.pkts.erase m).flatMap s.world.segments) :=
    (List.perm_cons_erase hm).flatMap_right _
  obtain ⟨hcounted, hnext⟩ := (h.counted.perm hperm).free (h.chain m hm)
  have hsegs : (rtePktmbufFree s.world (some m)).segments = s.world.segments := by
    funext k
    rw [World.segments, hnext, World.segments]
  refine ⟨fun k hk => ?_, ?_⟩
  · show Chain (rtePktmbufFree s.world (some m)).next (some k)
      ((rtePktmbufFree s.world (some m)).segments k)
    rw [hnext, hsegs]
    exact h.chain k (List.mem_of_mem_erase hk)
  · show World.Counted _ ((s.pkts.erase m).flatMap (rtePktmbufFree s.world (some m)).segments)
    rw [hsegs]
    exact hcounted

end Inv

theorem World.Counted.rxChain {w : World n} {users : List (Fin n)} (h : w.Counted users)
    (inPort : UInt8) {segs : List (Fin n × List UInt8)} (hnodup : (segs.map Prod.fst).Nodup)
    (hpooled : ∀ x ∈ segs.map Prod.fst, w.pooled x = true) :
    (rxChain w inPort segs).Counted (segs.map Prod.fst ++ users) := by
  induction segs with
  | nil => exact h
  | cons seg segs ih =>
    obtain ⟨m, bytes⟩ := seg
    rw [List.map_cons] at hnodup hpooled ⊢
    obtain ⟨hm, hnodup'⟩ := List.nodup_cons.mp hnodup
    have hrest := ih hnodup' fun x hx => hpooled x (List.mem_cons_of_mem _ hx)
    obtain ⟨hsame, _⟩ := rxChain_spec w inPort hnodup'
    have hmpooled : (LearningSwitch.rxChain w inPort segs).pooled m = true := by
      rw [hsame.pooled m hm]
      exact hpooled m List.mem_cons_self
    obtain ⟨pkt, heq⟩ : ∃ pkt, LearningSwitch.rxChain w inPort ((m, bytes) :: segs) =
        rxSeg (LearningSwitch.rxChain w inPort segs) m bytes pkt := ⟨_, rfl⟩
    rw [heq]
    refine hrest.take hmpooled rfl rfl (fun k hk => ?_) ?_ ?_
    · rw [rxSeg, modify_mbuf_ne _ _ hk]
      rfl
    · rw [World.target, rxSeg, modify_mbuf_self]
      rfl
    · rw [rxSeg, modify_mbuf_self]

def MbufUse.boot (pools : Fin n → Pool) (pick : Nat → Option (Fin n)) (txRoom : Nat → Nat) :
    MbufUse n where
  world := initEal pools pick txRoom
  pkts := []

theorem MbufUse.Inv.boot (pools : Fin n → Pool) (pick : Nat → Option (Fin n)) (txRoom : Nat → Nat) :
    (MbufUse.boot pools pick txRoom).Inv := by
  refine ⟨by simp [MbufUse.boot], ?_⟩
  refine ⟨⟨List.nodup_nil, fun _ _ => rfl, fun _ => rfl⟩, fun _ => rfl, fun _ => ?_, ?_⟩
  · exact ⟨fun _ => rfl, fun _ => rfl⟩
  · exact ⟨fun _ => rfl, fun _ => List.not_mem_nil⟩

theorem MbufUse.Inv.step {s : MbufUse n} (h : s.Inv) {call : MbufCall n}
    (howes : s.Owes call) : ∃ t, mbufStep s call = .ok t ∧ t.Inv := by
  cases call with
  | alloc mp => exact ⟨_, rfl, h.grant (h.counted.grantsAlloc mp)⟩
  | receive inPort m bytes rest =>
    obtain ⟨hnodup, hpooled⟩ := howes
    obtain ⟨hsame, _, hchain, _⟩ := rxChain_spec s.world inPort hnodup
    refine ⟨_, rfl, h.grant ⟨_, h.counted.rxChain inPort hnodup hpooled, hchain, fun k hk => ?_⟩⟩
    have hout : k ∉ ((m, bytes) :: rest).map Prod.fst := fun hin => by
      have huse := h.counted.inUse hk
      rw [hpooled k hin] at huse
      cases huse
    rw [World.next, hsame.mbuf k hout, World.next]
  | clone md mp =>
    exact ⟨_, rfl, h.grant (h.counted.grantsClone (h.chain md howes.1)
      (fun x hx => howes.sharable hx) mp)⟩
  | duplicate pkt useClone =>
    obtain ⟨huse, hclonable⟩ := howes
    exact ⟨_, rfl, h.grant (h.counted.grantsDuplicate (h.chain pkt hclonable.1)
      (fun x hx => hclonable.sharable hx) huse)⟩
  | free m => exact ⟨_, rfl, h.free howes⟩

section Runs

variable {pools : Fin n → Pool} {pick : Nat → Option (Fin n)} {txRoom : Nat → Nat}
  {calls : List (MbufCall n)}

theorem MbufUse.inv_of_run
    (ha : StepRun.Along mbufStep MbufUse.Owes (MbufUse.boot pools pick txRoom) calls) :
    ∃ s, StepRun.run mbufStep (MbufUse.boot pools pick txRoom) calls = .ok s ∧ s.Inv :=
  StepRun.run_ok_of_along (fun _ _ hs howes => hs.step howes)
    (MbufUse.Inv.boot pools pick txRoom) ha

/-- No two packets in use share a segment, each reference count tells how many segments in use
hold the data of the mbuf, and a mempool holds just the mbufs whose count is 0. -/
theorem rte_pktmbuf_counts
    (ha : StepRun.Along mbufStep MbufUse.Owes (MbufUse.boot pools pick txRoom) calls) :
    ∃ s, StepRun.run mbufStep (MbufUse.boot pools pick txRoom) calls = .ok s ∧
      s.users.Nodup ∧
      (∀ x, (s.world.mbuf x).refcnt.toNat =
        s.users.countP fun y => y = x ∨ (s.world.mbuf y).bufAddr = x) ∧
      ∀ x, s.world.pooled x = true ↔ (s.world.mbuf x).refcnt = 0 := by
  obtain ⟨s, hs, hinv⟩ := MbufUse.inv_of_run ha
  exact ⟨s, hs, hinv.counted.attached.nodup, hinv.counted.refcnt, hinv.counted.pooled⟩

/-- No segment is freed that lies in its pool, every mbuf goes back as often as it was taken while
it is not out, and once no packet is in use all of them are back. -/
theorem rte_pktmbuf_conserves
    (ha : StepRun.Along mbufStep MbufUse.Owes (MbufUse.boot pools pick txRoom) calls) :
    ∃ s, StepRun.run mbufStep (MbufUse.boot pools pick txRoom) calls = .ok s ∧
      (∀ x, .freeSeg x true ∉ s.world.log) ∧
      (∀ x, s.world.log.count (.get x) =
        s.world.log.count (.put x) + if s.world.pooled x then 0 else 1) ∧
      (s.pkts = [] → ∀ x, s.world.pooled x = true) := by
  obtain ⟨s, hs, hinv⟩ := MbufUse.inv_of_run ha
  refine ⟨s, hs, hinv.counted.ledger.clean, hinv.counted.ledger.balance, fun hpkts x => ?_⟩
  have hnone : s.users = [] := by
    rw [MbufUse.users, hpkts]
    rfl
  have hcount := hinv.counted.refcnt x
  rw [hnone] at hcount
  exact (hinv.counted.pooled x).mpr (UInt16.toNat_inj.mp hcount)

end Runs

/-- One header and three mbufs for clones; the other five are for frames. -/
def nineMbufs : MbufUse 9 :=
  MbufUse.boot (fun m => if m = 2 then .header else if 3 ≤ m ∧ m ≤ 5 then .clone else .packet)
    (fun i => some (Fin.ofNat 9 (i + 2))) fun _ => 0

/-- A frame of two segments is duplicated, the pool runs dry at a second clone, and the frame is
freed while the duplicate still shows its data. -/
def sharedFrame : List (MbufCall 9) :=
  [.receive 0 0 [1, 2, 3] [(1, [4, 5])], .duplicate 0 1, .clone 0 .clone, .free 0]

theorem rte_pktmbuf_counts_shared :
    ∃ s, StepRun.run mbufStep nineMbufs sharedFrame = .ok s ∧
      s.users.Nodup ∧
      (∀ x, (s.world.mbuf x).refcnt.toNat =
        s.users.countP fun y => y = x ∨ (s.world.mbuf y).bufAddr = x) ∧
      ∀ x, s.world.pooled x = true ↔ (s.world.mbuf x).refcnt = 0 :=
  rte_pktmbuf_counts
    (show StepRun.Along mbufStep MbufUse.Owes nineMbufs sharedFrame by decide +kernel)

theorem rte_pktmbuf_conserves_shared :
    ∃ s, StepRun.run mbufStep nineMbufs (sharedFrame ++ [.free 2]) = .ok s ∧
      (∀ x, .freeSeg x true ∉ s.world.log) ∧
      (∀ x, s.world.log.count (.get x) =
        s.world.log.count (.put x) + if s.world.pooled x then 0 else 1) ∧
      (s.pkts = [] → ∀ x, s.world.pooled x = true) :=
  rte_pktmbuf_conserves
    (show StepRun.Along mbufStep MbufUse.Owes nineMbufs (sharedFrame ++ [.free 2]) by
      decide +kernel)

end LearningSwitch
