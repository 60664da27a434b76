import Slopty.Media.Account
import Slopty.Media.RoundTrip

/-!
Receiver reports: each takes the current window's counts along, and one that
could not be sent gives them back. What the reports kept and the window say
together is what the reassembler counted since its start.
-/

namespace Slopty.Media.Reassemble

open Slopty.Lib
open Slopty.Media.Fec
open Slopty.Media.Wire
open Slopty.Media.Packetize

/-- What the receiver tells the worker of one window. -/
structure ReceiverReport where
  framesOk : Nat
  framesFec : Nat
  framesLost : Nat
  datagramsLost : Nat
  lastWorkerSendTsUs : UInt32
  holdP50 : Nat
  holdP95 : Nat
  owdJitter : Nat
  queueDepth : Nat
  lateFrames : Nat
  /-- Four places, of which the first `ackedLtrLen` are valid. -/
  ackedLtr : List UInt64
  ackedLtrLen : Nat
  stalledMs : Nat
  stalls : Nat
  deriving DecidableEq, Repr

/-- The `p`-th percentile of sorted holds. -/
def percentile (holds : List Nat) (p : Nat) : Nat :=
  (holds[min (holds.length * p / 100) (holds.length - 1)]?).getD 0

namespace Reassembler

/-- A frame carrying `token` was decoded; the next report acknowledges it. -/
def ackLtr (r : Reassembler) (token : UInt64) : Reassembler :=
  let kept := if maxPendingAcks ≤ r.ltrAcks.length then r.ltrAcks.drop 1 else r.ltrAcks
  { r with ltrAcks := kept ++ [token], newestAck := some token }

/-- Tokens a report acknowledges: the oldest four pending, or the newest again
while frames flow. -/
def reportAcks (r : Reassembler) : List UInt64 :=
  let tokens := r.ltrAcks.take 4
  if tokens.isEmpty ∧ 0 < r.window.framesOk then r.newestAck.toList else tokens

/-- Build the periodic report and reset the window's counters. -/
def takeReport (r : Reassembler) (now : Instant) (lateFrames : Nat) :
    Reassembler × ReceiverReport :=
  let r := if r.stalled now then r.chargeStall now 0 else r
  let holds := r.window.holdsNs.mergeSort
  let acks := r.reportAcks
  let report :=
    { framesOk := r.window.framesOk
      framesFec := r.window.framesFec
      framesLost := r.window.framesLost
      datagramsLost := r.window.datagramsLost
      lastWorkerSendTsUs := r.lastWorkerTsUs
      holdP50 := percentile holds 50
      holdP95 := percentile holds 95
      owdJitter := satMul 64 r.jitterUs.toNat 1000
      queueDepth := min (r.ready.length + r.frames.size) 255
      lateFrames := lateFrames
      ackedLtr := acks ++ List.replicate (4 - acks.length) 0
      ackedLtrLen := acks.length
      stalledMs := min (Duration.asMillis r.window.stalled) (2 ^ 16 - 1)
      stalls := r.window.stalls }
  ({ r with window := {}, ltrAcks := r.ltrAcks.drop 4 }, report)

/-- A report that could not be sent: its counts and acknowledgements go into the
next one. -/
def takeBack (r : Reassembler) (report : ReceiverReport) : Reassembler :=
  let tokens := report.ackedLtr.take report.ackedLtrLen
  let acks := tokens.reverse.foldl
    (fun acks token => if acks.contains token then acks else token :: acks) r.ltrAcks
  { r with
    ltrAcks := acks.drop (acks.length - maxPendingAcks)
    window := { r.window with
      framesOk := satAdd 32 r.window.framesOk report.framesOk
      framesFec := satAdd 32 r.window.framesFec report.framesFec
      framesLost := satAdd 32 r.window.framesLost report.framesLost
      datagramsLost := satAdd 32 r.window.datagramsLost report.datagramsLost
      stalled := Duration.saturatingAdd r.window.stalled (Duration.millis report.stalledMs)
      stalls := satAdd 16 r.window.stalls report.stalls } }

end Reassembler

/-- A reassembler, and the reports taken from it and not taken back. -/
structure Reporting where
  reassembler : Reassembler
  kept : List ReceiverReport

inductive ReportOp where
  | op (op : Op)
  | ackLtr (token : UInt64)
  | takeReport (now : Instant) (lateFrames : Nat)
  /-- The `k`-th of the reports kept was not sent. -/
  | takeBack (k : Nat)

namespace Reporting

def step (rs : ReedSolomon) (s : Reporting) : ReportOp → Reporting
  | .op op => { s with reassembler := Reassemble.step rs s.reassembler op }
  | .ackLtr token => { s with reassembler := s.reassembler.ackLtr token }
  | .takeReport now lateFrames =>
      let (r, report) := s.reassembler.takeReport now lateFrames
      { reassembler := r, kept := s.kept ++ [report] }
  | .takeBack k =>
      match s.kept[k]? with
      | none => s
      | some report =>
          { reassembler := s.reassembler.takeBack report, kept := s.kept.eraseIdx k }

def run (rs : ReedSolomon) (s : Reporting) (ops : List ReportOp) : Reporting :=
  ops.foldl (step rs) s

def reported (s : Reporting) (f : ReceiverReport → Nat) : Nat := (s.kept.map f).sum

end Reporting

/-- No counter of frames or datagrams stands at its largest value. -/
structure Unsaturated (r : Reassembler) : Prop where
  ok : r.stats.framesOk < 2 ^ 64 - 1 ∧ r.window.framesOk < 2 ^ 32 - 1
  lost : r.stats.framesLost < 2 ^ 64 - 1 ∧ r.window.framesLost < 2 ^ 32 - 1
  datagrams : r.stats.datagramsLost < 2 ^ 64 - 1 ∧ r.window.datagramsLost < 2 ^ 32 - 1

/-- The reports kept and the window say what the reassembler counted. -/
structure Conserved (s : Reporting) : Prop where
  ok : s.reported ReceiverReport.framesOk + s.reassembler.window.framesOk =
    s.reassembler.stats.framesOk
  lost : s.reported ReceiverReport.framesLost + s.reassembler.window.framesLost =
    s.reassembler.stats.framesLost
  datagrams : s.reported ReceiverReport.datagramsLost + s.reassembler.window.datagramsLost =
    s.reassembler.stats.datagramsLost

namespace Reassembler

theorem tick_charged (r : Reassembler) (now : Instant) (rtt : Duration) :
    Charged r (r.tick now rtt).1 := by
  have hstart : Books (fun _ => False) r (r.startTick now rtt) := startTick_books r now rtt
  obtain ⟨lost, c, -, htick⟩ := tick_eq r now rtt
  have hask : Charged (r.startTick now rtt) ((r.startTick now rtt).tickFrames c).1 :=
    Charged.of_counts rfl
  have hrest : Books (fun _ => False) _
      (((r.startTick now rtt).tickFrames c).1.tickRest lost c now rtt) :=
    tickRest_books _ lost c now rtt
  rw [htick _ rfl]
  exact ((hstart.toCharged.trans hask).trans hrest.toCharged).trans (Charged.of_counts rfl)

end Reassembler

theorem step_charged (rs : ReedSolomon) (r : Reassembler) (op : Op) : Charged r (step rs r op) := by
  cases op with
  | ingest datagram now => exact (Reassembler.ingest_books rs r datagram now).toCharged
  | tick now rtt => exact r.tick_charged now rtt
  | forceRefresh now keyframe =>
    have h : Books (fun _ => False) r (r.forceRefresh now keyframe) :=
      r.forceRefresh_books now keyframe
    exact h.toCharged
  | setSourceLive live =>
    have h : Books (fun _ => False) r (r.setSourceLive live) := r.setSourceLive_books live
    exact h.toCharged
  | nextFrame =>
    have h : Books (fun _ => False) r r.nextFrame.1 := r.nextFrame_books
    exact h.toCharged

namespace Conserved

variable {s : Reporting}

theorem charged (h : Conserved s) {t : Reassembler} (ht : Charged s.reassembler t)
    (hsat : Unsaturated t) : Conserved { s with reassembler := t } := by
  obtain ⟨hok, -, -⟩ := ht.ok hsat.ok.1 hsat.ok.2
  obtain ⟨hlost, -, -⟩ := ht.lost hsat.lost.1 hsat.lost.2
  obtain ⟨hdata, -, -⟩ := ht.datagrams hsat.datagrams.1 hsat.datagrams.2
  have h₁ := h.ok
  have h₂ := h.lost
  have h₃ := h.datagrams
  constructor
  · show s.reported ReceiverReport.framesOk + t.window.framesOk = t.stats.framesOk
    omega
  · show s.reported ReceiverReport.framesLost + t.window.framesLost = t.stats.framesLost
    omega
  · show s.reported ReceiverReport.datagramsLost + t.window.datagramsLost = t.stats.datagramsLost
    omega

theorem takeReport (rs : ReedSolomon) (h : Conserved s) (now : Instant) (lateFrames : Nat) :
    Conserved (s.step rs (.takeReport now lateFrames)) := by
  have hcounts : counts (if s.reassembler.stalled now then s.reassembler.chargeStall now 0
      else s.reassembler) = counts s.reassembler := by
    split <;> rfl
  obtain ⟨⟨hok, hok'⟩, ⟨hlost, hlost'⟩, hdata, hdata'⟩ := counts_eq_iff.mp hcounts
  have hsum : ∀ f : ReceiverReport → Nat, (s.step rs (.takeReport now lateFrames)).reported f =
      s.reported f + f (s.reassembler.takeReport now lateFrames).2 := by
    intro f
    simp [Reporting.step, Reporting.reported]
  refine ⟨?_, ?_, ?_⟩
  · rw [hsum]
    exact (congrArg (s.reported _ + ·) hok').trans (h.ok.trans hok.symm)
  · rw [hsum]
    exact (congrArg (s.reported _ + ·) hlost').trans (h.lost.trans hlost.symm)
  · rw [hsum]
    exact (congrArg (s.reported _ + ·) hdata').trans (h.datagrams.trans hdata.symm)

theorem sum_eraseIdx {l : List ReceiverReport} {k : Nat} {report : ReceiverReport}
    (hk : l[k]? = some report) (f : ReceiverReport → Nat) :
    (l.map f).sum = f report + ((l.eraseIdx k).map f).sum := by
  obtain ⟨hlt, rfl⟩ := List.getElem?_eq_some_iff.mp hk
  have hperm := (List.getElem_cons_eraseIdx_perm hlt).map f
  simpa using hperm.sum_nat.symm

theorem given_back {l : List ReceiverReport} {k total window : Nat} {report : ReceiverReport}
    (hk : l[k]? = some report) (f : ReceiverReport → Nat) (h : (l.map f).sum + window = total)
    (hsat : satAdd 32 window (f report) < 2 ^ 32 - 1) :
    ((l.eraseIdx k).map f).sum + satAdd 32 window (f report) = total := by
  rw [sum_eraseIdx hk f] at h
  unfold satAdd at hsat ⊢
  omega

theorem takeBack (rs : ReedSolomon) (h : Conserved s) (k : Nat)
    (hsat : Unsaturated (s.step rs (.takeBack k)).reassembler) :
    Conserved (s.step rs (.takeBack k)) := by
  unfold Reporting.step at hsat ⊢
  dsimp only at hsat ⊢
  split
  · exact h
  · rename_i report hk
    rw [hk] at hsat
    exact ⟨given_back hk _ h.ok hsat.ok.2, given_back hk _ h.lost hsat.lost.2,
      given_back hk _ h.datagrams hsat.datagrams.2⟩

theorem step (rs : ReedSolomon) (h : Conserved s) {op : ReportOp}
    (hsat : Unsaturated (s.step rs op).reassembler) : Conserved (s.step rs op) := by
  cases op with
  | op op => exact h.charged (step_charged rs s.reassembler op) hsat
  | ackLtr token => exact h.charged (Charged.of_counts rfl) hsat
  | takeReport now lateFrames => exact h.takeReport rs now lateFrames
  | takeBack k => exact h.takeBack rs k hsat

end Conserved

/-- Nothing is counted twice and nothing is dropped: after any run none of whose counters came to
its largest value, the reports kept and the window together say what was counted. -/
theorem reports_conserve_counts (rs : ReedSolomon) (stream : UInt32) (cfg : Config)
    (start : Instant) (ops : List ReportOp)
    (hsat : ∀ before, before <+: ops →
      Unsaturated (Reporting.run rs ⟨Reassembler.new stream cfg start, []⟩ before).reassembler) :
    Conserved (Reporting.run rs ⟨Reassembler.new stream cfg start, []⟩ ops) := by
  induction ops using List.reverseRecOn with
  | nil => exact ⟨rfl, rfl, rfl⟩
  | append_singleton ops op ih =>
    have hbefore := ih fun before hcut => hsat before (hcut.trans (List.prefix_append _ _))
    have hafter := hsat (ops ++ [op]) (List.prefix_refl _)
    rw [Reporting.run, List.foldl_append] at hafter ⊢
    exact hbefore.step rs hafter

instance (r : Reassembler) : Decidable (Unsaturated r) :=
  decidable_of_iff
    ((r.stats.framesOk < 2 ^ 64 - 1 ∧ r.window.framesOk < 2 ^ 32 - 1) ∧
      (r.stats.framesLost < 2 ^ 64 - 1 ∧ r.window.framesLost < 2 ^ 32 - 1) ∧
      r.stats.datagramsLost < 2 ^ 64 - 1 ∧ r.window.datagramsLost < 2 ^ 32 - 1)
    ⟨fun h => ⟨h.1, h.2.1, h.2.2⟩, fun h => ⟨h.1, h.2, h.3⟩⟩

/-- The first datagram of a frame sent as number `n`, in payloads of 256 bytes. -/
def firstDatagram (n : UInt32) (frame : EncodedFrame) : Bytes :=
  match (Packetizer.packetize copies
    { Packetizer.new 7 with nextFrame := n, maxPayload := 256, parityPermille := 0 } frame 3).result with
  | .ok sent => sent.datagrams.getD 0 []
  | .error _ => []

/-- A frame arrives and is reported; the next to arrive is numbered 100, and the
report of the loss is not sent. -/
def gapReported : List ReportOp :=
  [.op (.ingest (firstDatagram 0 tinyFrame) 5), .takeReport 6 0,
    .op (.ingest (firstDatagram 100 tinyFrame) 7), .takeReport 8 0, .takeBack 1]

theorem reports_conserve_counts_gap :
    (∀ n ≤ 5, Unsaturated
      (Reporting.run copies ⟨.new 7 {} 0, []⟩ (gapReported.take n)).reassembler) ∧
      Conserved (Reporting.run copies ⟨.new 7 {} 0, []⟩ gapReported) := by
  have hsat : ∀ n ≤ 5, Unsaturated
      (Reporting.run copies ⟨.new 7 {} 0, []⟩ (gapReported.take n)).reassembler := by
    decide +kernel
  refine ⟨hsat, reports_conserve_counts copies 7 {} 0 gapReported ?_⟩
  intro before hcut
  rw [List.prefix_iff_eq_take.mp hcut]
  exact hsat before.length hcut.length_le

end Slopty.Media.Reassemble
