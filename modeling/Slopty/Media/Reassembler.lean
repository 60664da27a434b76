import Slopty.Media.Silence
import Slopty.Media.Side
import Slopty.Media.Chain
import Slopty.Media.ReedSolomon

/-!
The reassembler's operations: storing fragments, putting frames back together,
delivering them in decode order, and deciding when to ask again, to skip and to
give up.
-/

namespace Slopty.Media.Reassemble

open Slopty.Lib
open Slopty.Media.Fec
open Slopty.Media.Wire

/-- Every element, or nothing when one is missing. -/
def gather {α : Type} : List (Option α) → Option (List α)
  | [] => some []
  | none :: _ => none
  | some a :: rest => (gather rest).map (a :: ·)

/-- The shards that arrived, each with its place. -/
def present (shards : List (Option Bytes)) : List (Nat × Bytes) :=
  shards.zipIdx.filterMap fun si => si.1.map fun b => (si.2, b)

namespace Partial

def originalShards (p : Partial) : List (Nat × Bytes) := present (p.shards.take p.dataCount)

/-- The parity shards that arrived, numbered from the first parity shard. -/
def recoveryShards (p : Partial) : List (Nat × Bytes) := present (p.shards.drop p.dataCount)

/-- The frame's data shards end to end, the missing ones restored from parity. -/
def body (rs : ReedSolomon) (p : Partial) : Option Bytes :=
  if p.haveData < p.dataCount then
    match rs.decode p.dataCount p.parityCount p.shardBytes p.originalShards p.recoveryShards with
    | none => none
    | some restored =>
        (gather ((p.shards.take p.dataCount).zipIdx.map fun si => si.1.or (restored si.2))).map
          List.flatten
  else (gather (p.shards.take p.dataCount)).map List.flatten

end Partial

/-- Concatenate the data shards and strip the prefix. `none` when the prefix is
corrupt or the engine refuses the shards. -/
def assemble (rs : ReedSolomon) (frame : Nat) (p : Partial) (arrived : Instant) :
    Option FrameOut :=
  match (p.body rs).bind FramePrefix.parse with
  | none => none
  | some (pre, rest) =>
      if pre.len.toNat ≤ rest.length then
        some
          { info :=
              { frame := frame
                keyframe := hasFlag p.flags Flags.keyframe
                ltrToken := if hasFlag p.flags Flags.ltr then some pre.ltrToken else none
                ltrRefresh := hasFlag p.flags Flags.ltrRefresh
                discardable := p.discardable
                captureTsUs := pre.captureTsUs
                stripes := pre.stripes
                build := pre.build
                region := pre.region?
                recovered := decide (p.haveData < p.dataCount) || p.retransmitted }
            data := rest.take pre.len.toNat
            hold := 0
            arrived := arrived }
      else none

/-- What is left to be done about a slot: one stepped over is one removal away,
any other one two steps at most. -/
def Slot.weight : Slot → Nat
  | .skipped => 1
  | .unknown .. | .part _ | .complete _ _ => 2

def weight (frames : OrdMap Nat Slot) : Nat := frames.total Slot.weight

namespace Reassembler

def countLostDatagrams (r : Reassembler) (missing : Nat) : Reassembler :=
  { r with
    stats := { r.stats with datagramsLost := satAdd 64 r.stats.datagramsLost missing }
    window := { r.window with
      datagramsLost := satAdd 32 r.window.datagramsLost (min missing (2 ^ 32 - 1)) } }

/-- Nothing more of `frame` is wanted. -/
def giveUp (r : Reassembler) (frame : Nat) : Reassembler :=
  let kept := if max r.cfg.maxPending 1 ≤ r.givenUp.length then r.givenUp.drop 1 else r.givenUp
  { r with givenUp := kept ++ [frame] }

/-- Ask the worker for a picture to restart from. -/
def requestRefresh (r : Reassembler) (now : Instant) (again : Bool) : Reassembler :=
  { r with
    refreshRequestedAt := some now
    stats :=
      if again then { r.stats with refreshRepeats := satAdd 64 r.stats.refreshRepeats 1 }
      else { r.stats with refreshes := satAdd 64 r.stats.refreshes 1 }
    actions := r.actions ++
      [.requestRefresh (r.lastGood.getD 0) (decide (r.need = .keyframe))] }

def enterRefresh (r : Reassembler) (now : Instant) : Reassembler :=
  requestRefresh { r with need := .refresh, refreshRequestedAt := none, refreshBackoff := 0 }
    now false

/-- Step over `frame`, which nothing refers to: no refresh, and delivery goes
on past it. -/
def skip (r : Reassembler) (frame missing : Nat) : Reassembler :=
  let known := ((r.frames.get? frame).map Slot.discardable).getD false
  let r := giveUp { r with frames := r.frames.insert frame .skipped } frame
  countLostDatagrams
    { r with
      stats := { r.stats with framesSkipped := satAdd 64 r.stats.framesSkipped 1 }
      trace := r.trace ++ [.skipped frame known] }
    missing

/-- Give up on `frame`: skip it when nothing refers to it, otherwise lose it and
ask for a refresh. -/
def lose (r : Reassembler) (frame missing : Nat) (now : Instant) : Reassembler :=
  if ((r.frames.get? frame).map Slot.discardable).getD false then r.skip frame missing
  else
    let r := giveUp { r with frames := r.frames.erase frame } frame
    let r := countLostDatagrams
      { r with
        stats := { r.stats with framesLost := satAdd 64 r.stats.framesLost 1 }
        window := { r.window with framesLost := satAdd 32 r.window.framesLost 1 } }
      missing
    match r.need with
    | .frame _ => r.enterRefresh now
    | .keyframe | .refresh => r.requestRefresh now true

/-- Move a complete partial into a `complete` slot, or count it lost if it is
corrupt. -/
def finish (rs : ReedSolomon) (r : Reassembler) (frame : Nat) (now : Instant) : Reassembler :=
  match r.frames.get? frame with
  | some (.part p) =>
      let r := { r with frames := r.frames.erase frame }
      match assemble rs frame p now with
      | some out =>
          let r :=
            if out.info.recovered then
              { r with
                window := { r.window with framesFec := satAdd 32 r.window.framesFec 1 }
                stats := { r.stats with
                  framesFec :=
                    if p.haveData < p.dataCount then satAdd 64 r.stats.framesFec 1
                    else r.stats.framesFec
                  framesRetransmit :=
                    if p.retransmitted then satAdd 64 r.stats.framesRetransmit 1
                    else r.stats.framesRetransmit } }
            else r
          let r := r.countLostDatagrams p.missingDataCount
          { r with frames := r.frames.insert frame (.complete out p.firstSeen) }
      | none => r.lose frame p.missingDataCount now
  | _ => { r with frames := r.frames.erase frame }

/-- Whether a frame after `frame` is complete. -/
def completeAfter (r : Reassembler) (frame : Nat) : Bool :=
  r.frames.entries.any fun e => decide (satAdd 32 frame 1 ≤ e.1) && e.2.isComplete

def recordDelivery (r : Reassembler) (out : FrameOut) (now : Instant) : Reassembler :=
  let arrivalUs := min (Duration.asMicros (Instant.since now r.epoch)) (2 ^ 64 - 1)
  let jitter :=
    match r.lastArrival with
    | none => r.jitterUs
    | some (prevArrival, prevTs) =>
        let transit : Int := min (arrivalUs - prevArrival : Nat) (2 ^ 63 - 1)
        let sent : Int := (out.info.captureTsUs - prevTs).toNat
        let d : Int := min (transit - sent).natAbs (2 ^ 63 - 1)
        r.jitterUs + (d - r.jitterUs).tdiv 16
  { r with
    stats := { r.stats with framesOk := satAdd 64 r.stats.framesOk 1 }
    window := { r.window with
      framesOk := satAdd 32 r.window.framesOk 1
      holdsNs := r.window.holdsNs ++ [min out.hold (2 ^ 64 - 1)] }
    lastWorkerTsUs := out.info.captureTsUs
    jitterUs := jitter
    lastArrival := some (arrivalUs, out.info.captureTsUs) }

/-- Hand the complete frame `next` over; `none` when it is not complete. -/
def deliver (r : Reassembler) (next : Nat) (now : Instant) : Option Reassembler :=
  match r.frames.get? next with
  | some (.complete out firstSeen) =>
      let out := { out with hold := Instant.since now firstSeen }
      let before := r.need
      let r := recordDelivery { r with frames := r.frames.erase next } out now
      some
        { r with
          ready := r.ready ++ [out]
          lastGood := some next
          need := .frame (nextNumber next)
          trace := r.trace ++ [.delivered out.info before] }
  | _ => none

def restartFrame (r : Reassembler) (acceptRefresh : Bool) : Option Nat :=
  r.frames.entries.findSome? fun e =>
    match e.2 with
    | .complete out _ =>
        if out.info.keyframe || (acceptRefresh && out.info.ltrRefresh) then some e.1 else none
    | _ => none

/-- What a slot being stepped over still missed. -/
def skipMissing : Slot → Nat
  | .part p => p.missingDataCount
  | _ => 1

/-- One turn of `drain`; `none` when it breaks. -/
def drainStep (now : Instant) (r : Reassembler) : Option Reassembler :=
  match r.need with
  | .frame n =>
      match r.frames.get? n with
      | some (.complete _ _) => r.deliver n now
      | some .skipped =>
          some { r with frames := r.frames.erase n, need := .frame (nextNumber n) }
      -- A later picture is ready: showing it beats waiting for one nothing needs.
      | some slot =>
          if slot.discardable && r.completeAfter n then some (r.skip n (skipMissing slot))
          else none
      | none => none
  | .keyframe | .refresh =>
      match r.restartFrame (decide (r.need = .refresh)) with
      | none => none
      | some f =>
          deliver
            { r with
              frames := r.frames.retain fun k _ => decide (f ≤ k)
              refreshRequestedAt := none
              refreshBackoff := 0 }
            f now

/-- Deliver everything that is in order, or restarts the stream. -/
def drain (r : Reassembler) (now : Instant) : Reassembler :=
  loop (drainStep now) (weight r.frames) r

/-- One turn of `evict`; `none` when it breaks. -/
def evictStep (now : Instant) (r : Reassembler) : Option Reassembler :=
  if r.frames.size ≤ r.cfg.maxPending then none
  else
    match r.frames.first? with
    | none => none
    | some (frame, .complete _ _) => some { r with frames := r.frames.erase frame }
    | some (frame, .skipped) =>
        some
          { r with
            frames := r.frames.erase frame
            need := if r.need = .frame frame then .frame (nextNumber frame) else r.need }
    | some (frame, .unknown ..) => some (r.lose frame 1 now)
    | some (frame, .part p) => some (r.lose frame p.missingDataCount now)

/-- Drop the oldest frames beyond `max_pending`. -/
def evict (r : Reassembler) (now : Instant) : Reassembler :=
  loop (evictStep now) (weight r.frames) r

/-- A fragment of `frame` while frames leave in order: every frame skipped over
is waited for, unless too many vanished at once. -/
def openGap (r : Reassembler) (frame : Nat) (now : Instant) : Reassembler :=
  match r.need with
  | .frame next =>
      let gap := frame - next
      if r.cfg.maxPending < gap then
        enterRefresh
          { r with
            stats := { r.stats with framesLost := satAdd 64 r.stats.framesLost gap }
            window := { r.window with framesLost := satAdd 32 r.window.framesLost gap }
            frames := r.frames.retain fun k _ => decide (frame ≤ k) }
          now
      else
        { r with
          frames := (List.range' next gap).foldl
            (fun m k => if (m.get? k).isSome then m else m.insert k (Slot.fresh now)) r.frames }
  | .keyframe | .refresh => r

/-- The fragment says the frame before its own is one nothing refers to. -/
def markPrevious (r : Reassembler) (header : MediaHeader) (frame : Nat) : Reassembler :=
  if hasFlag header.flags Flags.prevDiscardable ∧ 0 < frame then
    match r.frames.get? (frame - 1) with
    | some slot => { r with frames := r.frames.insert (frame - 1) slot.markDiscardable }
    | none => r
  else r

/-- The partial a fragment goes into, opened when nothing of the frame arrived
before; `none` when the frame is settled. -/
def openPartial (r : Reassembler) (header : MediaHeader) (frame : Nat) (payload : Bytes)
    (now : Instant) : Reassembler × Option Partial :=
  match (r.frames.get? frame).getD (Slot.fresh now) with
  | .unknown _ _ _ discardable =>
      let p := Partial.new header payload.length now discardable
      ({ r with
          frames := r.frames.insert frame (.part p)
          stats := { r.stats with
            dataShards := satAdd 64 r.stats.dataShards header.dataCount.toNat
            parityShards := satAdd 64 r.stats.parityShards header.parityCount.toNat } }, some p)
  | .part p => (r, some p)
  | .complete _ _ | .skipped => (r, none)

end Reassembler

/-- Result of feeding one datagram. -/
inductive Ingest where
  | video
  | audio (seq : UInt32) (packets : Side.AudioPackets)
  | cursor (seq : UInt32) (update : Side.CursorUpdate)
  | heartbeat
  | ignored (why : Ignored)
  deriving DecidableEq, Repr

namespace Partial

/-- Put a fragment in its place. -/
def store (p : Partial) (index : Nat) (payload : Bytes) (header : MediaHeader) (now : Instant) :
    Partial :=
  { p with
    shards := p.shards.set index (some payload)
    haveTotal := p.haveTotal + 1
    haveData := if index < p.dataCount then p.haveData + 1 else p.haveData
    lastSeen := now
    retransmitted := p.retransmitted || hasFlag header.flags Flags.retransmit }

end Partial

/-- Whether a video fragment's header and payload make sense. -/
def validFragment (header : MediaHeader) (payload : Bytes) : Bool :=
  let dataCount := header.dataCount.toNat
  let index := header.index.toNat
  decide (0 < dataCount) && decide (index < dataCount + header.parityCount.toNat) &&
    !payload.isEmpty && payload.length % 2 == 0 && decide (payload.length ≤ maxPayload) &&
    header.isParity == decide (dataCount ≤ index)

namespace Reassembler

/-- Delivered before, given up on, or behind what is needed. -/
def stale (r : Reassembler) (frame : Nat) : Bool :=
  r.givenUp.contains frame || (r.lastGood.any fun good => decide (frame ≤ good)) ||
    match r.need with
    | .frame next => decide (frame < next)
    | .keyframe | .refresh => false

/-- Store a fragment of a frame still wanted, and deliver what that completes. -/
def storeFragment (rs : ReedSolomon) (r : Reassembler) (header : MediaHeader) (payload : Bytes)
    (now : Instant) : Reassembler × Ingest :=
  let frame := header.frame.toNat
  match r.openPartial header frame payload now with
  | (r, none) => (r, .ignored .duplicate)
  | (r, some p) =>
      if p.dataCount ≠ header.dataCount.toNat ∨
          p.shards.length ≠ header.dataCount.toNat + header.parityCount.toNat ∨
          p.shardBytes ≠ payload.length then
        (r, .ignored .malformed)
      else
        match p.shards[header.index.toNat]? with
        | none => (r, .ignored .malformed)
        | some (some _) => (r, .ignored .duplicate)
        | some none =>
            let p := p.store header.index.toNat payload header now
            let r := { r with frames := r.frames.insert frame (.part p) }
            let r := if p.complete then r.finish rs frame now else r
            ((r.drain now).evict now, .video)

def ingestVideo (rs : ReedSolomon) (r : Reassembler) (header : MediaHeader) (payload : Bytes)
    (now : Instant) : Reassembler × Ingest :=
  let r := { r with anyArrived := true }
  let frame := header.frame.toNat
  if !validFragment header payload then (r, .ignored .malformed)
  else if r.stale frame then (r, .ignored .stale)
  else ((r.openGap frame now).markPrevious header frame).storeFragment rs header payload now

def endSilence (r : Reassembler) (header : MediaHeader) (now : Instant) : Reassembler :=
  let gap := Instant.since now r.arrivedAt
  let stamp := r.readStamp header gap
  let workerGap := workerShare stamp gap
  let dozed := r.dozeBeyondWorker now workerGap
  let unexplained := gap - workerGap
  let linkGap := unexplained - dozed
  let threshold := r.stallThreshold
  let any := r.anyArrived
  let r := if any && decide (threshold ≤ gap) then r.attributeSilence gap stamp dozed header.kind?
    else r
  let r := if any && decide (threshold ≤ unexplained) then r.resume now else r
  let r :=
    if any && decide (threshold ≤ linkGap) then
      let r := r.chargeStall now workerGap
      { r with
        window := { r.window with stalls := satAdd 16 r.window.stalls 1 }
        stats := { r.stats with stalls := satAdd 64 r.stats.stalls 1 } }
    else r
  { r with
    lastSendMsLo := if hasFlag header.flags Flags.retransmit then none else some header.sendMsLo
    arrivedAt := now
    dozedSinceArrival := 0
    dozedFrom := none
    dozedSpent := 0
    lastTickAt := max r.lastTickAt now
    refreshRepeats := 0 }

/-- Feed one datagram. -/
def ingest (rs : ReedSolomon) (r : Reassembler) (datagram : Bytes) (now : Instant) :
    Reassembler × Ingest :=
  match MediaHeader.parse datagram with
  | none => (r, .ignored .malformed)
  | some (header, payload) =>
      if header.stream ≠ r.stream then (r, .ignored .foreign)
      else
        let r := r.endSilence header now
        match header.kind? with
        | none => (r, .ignored .malformed)
        | some .audio =>
            match Side.parseAudio header.dataCount payload with
            | some packets => (r, .audio header.frame packets)
            | none => (r, .ignored .malformed)
        | some .heartbeat =>
            if !r.anyArrived && !r.firstLost && header.frame ≠ 0 then
              ({ r with firstLost := true, refreshRequestedAt := none }, .heartbeat)
            else (r, .heartbeat)
        | some .clock => (r, .heartbeat)
        | some .cursor =>
            match Side.parseCursor payload with
            | some update => (r, .cursor header.frame update)
            | none => (r, .ignored .malformed)
        | some .videoData | some .videoParity => r.ingestVideo rs header payload now

/-- The timing a `tick` works with. -/
structure TickClock where
  now : Instant
  arrivedAt : Instant
  nackDelay : Duration
  retryGap : Duration
  deadline : Duration
  maxHold : Duration
  retries : Nat
  flowing : Bool
  inOrder : Bool
  acceptRefresh : Bool
  newestComplete : Option Nat

namespace TickClock

def retryDue (c : TickClock) : Option Instant → Bool
  | none => true
  | some t => decide (c.retryGap ≤ Instant.since c.now t) && decide (t < c.arrivedAt)

/-- A frame nothing refers to is asked for once, and not at all once a later
picture is ready to show in its place. -/
def worthAsking (c : TickClock) (frame : Nat) (discardable : Bool) (tries : Nat) : Bool :=
  !discardable || (tries == 0 && c.newestComplete.all fun newest => decide (newest < frame))

end TickClock

/-- What a `tick` makes of one slot: it waits on, is asked for again, or is
lost with so many fragments missing. -/
inductive Verdict where
  | wait
  | ask (fragments : List Nat)
  | lost (missing : Nat)
  deriving DecidableEq, Repr

def tickVerdict (c : TickClock) (frame : Nat) : Slot → Verdict
  | .complete _ _ | .skipped => .wait
  | .unknown firstSeen tries nackedAt discardable =>
      let age := Instant.since c.now firstSeen
      if c.maxHold ≤ age ∨ (c.deadline ≤ age ∧ c.flowing) then .lost 1
      else if c.inOrder ∧ tries < c.retries ∧ c.worthAsking frame discardable tries ∧
          c.nackDelay ≤ age ∧ c.retryDue nackedAt then
        .ask []
      else .wait
  | .part p =>
      let quiet := Instant.since c.now p.lastSeen
      if c.maxHold ≤ quiet ∨ (c.deadline ≤ quiet ∧ c.flowing) then .lost p.missingDataCount
      else if (c.inOrder ∨ p.restartable c.acceptRefresh) ∧ p.nacks < c.retries ∧
          c.worthAsking frame p.discardable p.nacks ∧ c.nackDelay ≤ quiet ∧
          c.retryDue p.nackedAt then
        .ask p.missingData
      else .wait

def asked (now : Instant) : Slot → Slot
  | .unknown firstSeen tries _ discardable =>
      .unknown firstSeen (satAdd 8 tries 1) (some now) discardable
  | .part p => .part { p with nacks := satAdd 8 p.nacks 1, nackedAt := some now }
  | .complete out f => .complete out f
  | .skipped => .skipped

def tickSlot (c : TickClock) (frame : Nat) (s : Slot) : Slot :=
  match tickVerdict c frame s with
  | .ask _ => asked c.now s
  | .wait | .lost _ => s

/-- Bank the receiver's sleep and take the round trip in. -/
def startTick (r : Reassembler) (now : Instant) (rtt : Duration) : Reassembler :=
  let slept := r.dozedSinceTick now
  let r :=
    if slept = 0 then r
    else
      { r with
        dozedFrom := some (r.dozedFrom.getD r.dozeTailFrom)
        dozedSinceArrival := Duration.saturatingAdd r.dozedSinceArrival slept }
  { r with
    lastTickAt := max r.lastTickAt now
    lastRtt := rtt
    nackDelay := r.cfg.nackDelay.forRtt rtt }

def tickClock (r : Reassembler) (now : Instant) (rtt : Duration) : TickClock :=
  let retryGap := Duration.saturatingAdd rtt r.nackDelay
  let deadline := Duration.saturatingAdd
    (Duration.saturatingAdd r.nackDelay (Duration.saturatingMul retryGap r.cfg.nackRetries))
    r.cfg.grace
  { now := now
    arrivedAt := r.arrivedAt
    nackDelay := r.nackDelay
    retryGap := retryGap
    deadline := deadline
    maxHold := r.cfg.maxHold
    retries := r.cfg.nackRetries
    flowing := decide (Instant.since now r.arrivedAt < deadline)
    inOrder := !r.awaitingRefresh
    acceptRefresh := decide (r.need = .refresh)
    newestComplete := r.frames.entries.reverse.findSome? fun e =>
      if e.2.isComplete then some e.1 else none }

/-- Ask for fragments and find the frames past their deadline. -/
def tickFrames (r : Reassembler) (c : TickClock) : Reassembler × List (Nat × Nat) :=
  let nacks := r.frames.entries.filterMap fun e =>
    match tickVerdict c e.1 e.2 with
    | .ask fragments => some (Action.nack e.1 fragments)
    | .wait | .lost _ => none
  let lost := r.frames.entries.filterMap fun e =>
    match tickVerdict c e.1 e.2 with
    | .lost missing => some (e.1, missing)
    | .wait | .ask _ => none
  ({ r with
      frames := r.frames.mapVal (tickSlot c)
      stats := { r.stats with nacks := satAdd 64 r.stats.nacks nacks.length }
      actions := r.actions ++ nacks }, lost)

/-- Ask again for the picture that restarts the stream, when it is due. -/
def repeatRefresh (r : Reassembler) (c : TickClock) (rtt : Duration) : Reassembler :=
  let answerArriving := r.frames.values.any fun s =>
    match s with
    | .part p => p.restartable c.acceptRefresh
    | _ => false
  if !c.inOrder && !answerArriving && (r.anyArrived || r.firstLost) && r.sourceLive &&
      decide (r.refreshRepeats < r.cfg.refreshMaxRepeats) then
    let backoff := min
      (Duration.saturatingMul r.cfg.refreshRepeat (2 ^ min r.refreshBackoff 16))
      r.cfg.refreshRepeatMax
    let wait := Duration.saturatingAdd backoff (Duration.saturatingMul rtt 2)
    let again : Option Bool :=
      match r.refreshRequestedAt with
      | none => some false
      | some asked => if wait ≤ Instant.since c.now asked then some true else none
    match again with
    | none => r
    | some again =>
        requestRefresh
          { r with
            refreshRepeats := satAdd 32 r.refreshRepeats 1
            refreshBackoff := satAdd 32 r.refreshBackoff 1 }
          c.now again
  else r

/-- Time-driven policy: NACKs, loss deadlines, refresh repeats. -/
def tick (r : Reassembler) (now : Instant) (rtt : Duration) : Reassembler × List Action :=
  let r := r.startTick now rtt
  let c := r.tickClock now rtt
  let (r, lost) := r.tickFrames c
  let r := lost.foldl (fun r fm => r.lose fm.1 fm.2 now) r
  let r := (r.repeatRefresh c rtt).drain now
  ({ r with actions := [] }, r.actions)

/-- The decoder could not use what it was given: ask for a picture it can
decode, and drop every frame until one comes. -/
def forceRefresh (r : Reassembler) (now : Instant) (keyframe : Bool) : Reassembler :=
  let waiting := r.awaitingRefresh && (!keyframe || decide (r.need = .keyframe))
  let r :=
    { r with
      need := r.need.forced keyframe
      ready := []
      ltrAcks := if keyframe then [] else r.ltrAcks
      newestAck := if keyframe then none else r.newestAck
      trace := r.trace ++ [.forced keyframe] }
  if waiting then r
  else requestRefresh { r with refreshRequestedAt := none, refreshBackoff := 0 } now false

/-- The worker said whether its capture target is producing pictures. -/
def setSourceLive (r : Reassembler) (live : Bool) : Reassembler :=
  if r.sourceLive ≠ live then
    if live then
      { r with
        sourceLive := live
        refreshRepeats := 0
        refreshBackoff := 0
        refreshRequestedAt := none }
    else { r with sourceLive := live }
  else r

def nextFrame (r : Reassembler) : Reassembler × Option FrameOut :=
  match r.ready with
  | [] => (r, none)
  | out :: rest => ({ r with ready := rest, trace := r.trace ++ [.taken out.info] }, some out)

end Reassembler

inductive Op where
  | ingest (datagram : Bytes) (now : Instant)
  | tick (now : Instant) (rtt : Duration)
  | forceRefresh (now : Instant) (keyframe : Bool)
  | setSourceLive (live : Bool)
  | nextFrame

def step (rs : ReedSolomon) (r : Reassembler) : Op → Reassembler
  | .ingest datagram now => (r.ingest rs datagram now).1
  | .tick now rtt => (r.tick now rtt).1
  | .forceRefresh now keyframe => r.forceRefresh now keyframe
  | .setSourceLive live => r.setSourceLive live
  | .nextFrame => r.nextFrame.1

def run (rs : ReedSolomon) (r : Reassembler) (ops : List Op) : Reassembler :=
  ops.foldl (step rs) r

end Slopty.Media.Reassemble
