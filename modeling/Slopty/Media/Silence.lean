import Slopty.Media.ReassemblerState

/-!
Where a silence in arrivals went: the worker's own quiet, the receiver's sleep,
or the link. The accounting moves counters and restarts the deadlines of frames
still waited for; it never touches what is needed or what was delivered.
-/

namespace Slopty.Media.Reassemble

open Slopty.Lib
open Slopty.Media.Wire

/-- What the worker's send stamps made of a silence in arrivals. -/
inductive Stamp where
  | worker (d : Duration)
  | covered
  | absent
  | wrapped
  | backwards (d : Duration)
  deriving DecidableEq, Repr

def workerShare (stamp : Stamp) (gap : Duration) : Duration :=
  match stamp with
  | .worker d => d
  | .covered => gap
  | .absent | .wrapped | .backwards _ => 0

namespace Reassembler

def stallThreshold (r : Reassembler) : Duration :=
  max (Duration.saturatingAdd r.lastRtt r.nackDelay) r.cfg.stallGap

def readStamp (r : Reassembler) (header : MediaHeader) (gap : Duration) : Stamp :=
  if hasFlag header.flags Flags.retransmit then .absent
  else
    match r.lastSendMsLo with
    | none => .absent
    | some previous =>
        if sendStampRange ≤ gap then .wrapped
        else
          let workerGap := Duration.millis (header.sendMsLo - previous).toNat
          if workerGap ≤ gap then .worker workerGap
          else if workerGap - gap ≤ stampSlack then .covered
          else .backwards (workerGap - gap)

/-- The sleep not yet banked by `tick`: the stretch since the last one beyond
the promised cadence. -/
def dozedSinceTick (r : Reassembler) (arrival : Instant) : Duration :=
  Instant.since arrival r.lastTickAt - r.cfg.tickPeriod

/-- Where the sleep since the last `tick` begins. -/
def dozeTailFrom (r : Reassembler) : Instant := r.lastTickAt + r.cfg.tickPeriod

/-- The sleep in this silence as of `arrival`: how much, and when it began. -/
def doze (r : Reassembler) (arrival : Instant) : Duration × Option Instant :=
  let tail := r.dozedSinceTick arrival
  let tailFrom := if tail = 0 then none else some r.dozeTailFrom
  (Duration.saturatingAdd r.dozedSinceArrival tail, r.dozedFrom.or tailFrom)

def dozed (r : Reassembler) (arrival : Instant) : Duration := (r.doze arrival).1

/-- The sleep that cannot have been the worker's, given the worker's own share
of the silence. -/
def dozeBeyondWorker (r : Reassembler) (arrival : Instant) (workerGap : Duration) : Duration :=
  match r.doze arrival with
  | (_, none) => 0
  | (total, some start) => total - Instant.since (r.arrivedAt + workerGap) start

/-- File a silence past the stall threshold under what the stamps made of it. -/
def attributeSilence (r : Reassembler) (gap : Duration) (stamp : Stamp) (dozed : Duration)
    (kind : Option Kind) : Reassembler :=
  let threshold := r.stallThreshold
  let worker := workerShare stamp gap
  let pending := r.frames.values.any fun s => !s.settled
  let a := r.stats.silences
  let a := { a with
    gapMsMax := max a.gapMsMax (min (Duration.asMillis gap) (2 ^ 64 - 1))
    dozedMsMax := max a.dozedMsMax (min (Duration.asMillis dozed) (2 ^ 64 - 1)) }
  let a := if pending then a else { a with whileIdle := satAdd 64 a.whileIdle 1 }
  let a :=
    if gap - worker < threshold then
      match stamp with
      | .covered => { a with workerCovered := satAdd 64 a.workerCovered 1 }
      | _ => { a with workerQuiet := satAdd 64 a.workerQuiet 1 }
    else if gap - worker - dozed < threshold then
      { a with receiverDozed := satAdd 64 a.receiverDozed 1 }
    else
      match stamp with
      | .worker _ | .covered => { a with inFlight := satAdd 64 a.inFlight 1 }
      | .absent => { a with stampAbsent := satAdd 64 a.stampAbsent 1 }
      | .wrapped => { a with stampWrapped := satAdd 64 a.stampWrapped 1 }
      | .backwards _ => { a with stampBackwards := satAdd 64 a.stampBackwards 1 }
  let a :=
    match kind with
    | some .heartbeat => { a with endedHeartbeat := satAdd 64 a.endedHeartbeat 1 }
    | some .videoData | some .videoParity => { a with endedVideo := satAdd 64 a.endedVideo 1 }
    | _ => { a with endedOther := satAdd 64 a.endedOther 1 }
  { r with stats := { r.stats with silences := a } }

/-- Whether nothing has arrived for a stall's worth of time as of `now`. -/
def stalled (r : Reassembler) (now : Instant) : Bool :=
  r.anyArrived && r.sourceLive &&
    decide (r.stallThreshold ≤ Instant.since now r.arrivedAt - r.dozed now)

/-- Charge the silence since the last datagram to the current report window. -/
def chargeStall (r : Reassembler) (now : Instant) (workerGap : Duration) : Reassembler :=
  let stretch := Instant.since now (max r.arrivedAt r.stallChargedTo)
  let doze := min (r.dozeBeyondWorker now workerGap - r.dozedSpent) (stretch - workerGap)
  let silence := stretch - workerGap - doze
  { r with
    dozedSpent := Duration.saturatingAdd r.dozedSpent doze
    window := { r.window with stalled := Duration.saturatingAdd r.window.stalled silence }
    stats := { r.stats with
      stalledMs := satAdd 64 r.stats.stalledMs
        (if Duration.asMillis silence < 2 ^ 64 then Duration.asMillis silence else 0) }
    stallChargedTo := now }

/-- Restart one slot's NACK clock after the link moved again. -/
def resumeSlot (fresh now : Instant) : Slot → Slot
  | .complete out f => .complete out f
  | .skipped => .skipped
  | .unknown _ nacks _ d => .unknown fresh nacks (if 0 < nacks then some now else none) d
  | .part p =>
      .part { p with
        firstSeen := fresh
        lastSeen := fresh
        nackedAt := if 0 < p.nacks then some now else none }

def resume (r : Reassembler) (now : Instant) : Reassembler :=
  if r.frames.values.all Slot.settled then r
  else { r with frames := r.frames.mapVal fun _ s => resumeSlot (now - r.nackDelay) now s }

end Reassembler

end Slopty.Media.Reassemble
