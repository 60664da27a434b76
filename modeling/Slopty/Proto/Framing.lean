import Mathlib.Data.List.Induction
import Slopty.Proto.Codec

/-!
A stream of frames read from a buffer that is filled a chunk at a time, and the scratch buffer
frames are encoded in.
-/

namespace Slopty.Proto.Codec

open Slopty.Lib

/-! ### Encoding -/

/-- A growable byte buffer: what is in it, and how much it can hold without growing. -/
structure ByteBuf where
  bytes : Bytes := []
  capacity : Nat := 0
  deriving DecidableEq, Repr

/-- A scratch buffer that grew past this goes out as the frame. -/
def scratchKeepBytes : Nat := 64 * 1024

/-- Encode a message behind a reserved prefix in the scratch buffer, which is taken meanwhile, and
left empty unless the frame is copied out of it. `grow` is the capacity a buffer of a given one has
once it holds so many bytes. -/
def encodeIn {α : Type} (wire : Postcard α) (grow : Nat → Nat → Nat) (scratch : ByteBuf) (msg : α) :
    Except CodecError Bytes × ByteBuf :=
  let out := List.replicate prefixBytes 0 ++ wire.toBytes msg
  let capacity := grow scratch.capacity out.length
  let len := out.length - prefixBytes
  if maxFrameBytes < len then (.error (.tooLarge len maxFrameBytes), {})
  else
    let out := leBytes prefixBytes len ++ out.drop prefixBytes
    if scratchKeepBytes < capacity then (.ok out, {})
    else (.ok out, { bytes := out, capacity := capacity })

variable {α : Type} (wire : Postcard α)

/-- What comes out does not depend on what the scratch buffer held. -/
theorem encodeIn_fst (grow : Nat → Nat → Nat) (scratch : ByteBuf) (msg : α) :
    (encodeIn wire grow scratch msg).1 = encode wire msg := by
  have hlen : (List.replicate prefixBytes 0 ++ wire.toBytes msg).length - prefixBytes =
      (wire.toBytes msg).length := by
    rw [List.length_append, List.length_replicate, Nat.add_sub_cancel_left]
  have hdrop : (List.replicate prefixBytes 0 ++ wire.toBytes msg).drop prefixBytes =
      wire.toBytes msg := List.drop_left' List.length_replicate
  unfold encodeIn encode
  simp only [hlen, hdrop]
  split
  · rfl
  · split <;> rfl

theorem encodeIn_of_large (grow : Nat → Nat → Nat) (scratch : ByteBuf) {msg : α}
    (h : maxFrameBytes < (wire.toBytes msg).length) :
    encodeIn wire grow scratch msg =
      (.error (.tooLarge (wire.toBytes msg).length maxFrameBytes), {}) := by
  have hlen : (List.replicate prefixBytes 0 ++ wire.toBytes msg).length - prefixBytes =
      (wire.toBytes msg).length := by
    rw [List.length_append, List.length_replicate, Nat.add_sub_cancel_left]
  unfold encodeIn
  simp only [hlen, if_pos h]

/-! ### Reading -/

/-- A buffer being filled, the bodies taken from it and what it was refused for. -/
structure Reader where
  buf : Bytes := []
  got : List Bytes := []
  refused : Option CodecError := none
  deriving DecidableEq, Repr

inductive Read where
  | feed (chunk : Bytes)
  | take
  deriving DecidableEq, Repr

namespace Reader

def step (r : Reader) : Read → Reader
  | .feed chunk => { r with buf := r.buf ++ chunk }
  | .take =>
      match tryTake r.buf with
      | .ok none => r
      | .ok (some (body, rest)) => { r with buf := rest, got := r.got ++ [body] }
      | .error e => { r with refused := some e }

def run (r : Reader) (reads : List Read) : Reader := reads.foldl step r

end Reader

def fed (reads : List Read) : Bytes :=
  reads.flatMap fun
    | .feed chunk => chunk
    | .take => []

theorem fed_append (reads more : List Read) : fed (reads ++ more) = fed reads ++ fed more :=
  List.flatMap_append ..

@[simp] theorem fed_feed (chunk : Bytes) : fed [.feed chunk] = chunk := by simp [fed]

@[simp] theorem fed_take : fed [.take] = [] := rfl

/-- The bodies taken are the first messages', and what is left in the buffer is what was fed after
their frames. -/
structure Reader.Keeps (msgs : List α) (given : Bytes) (r : Reader) : Prop where
  refused : r.refused = none
  taken : ∃ k ≤ msgs.length, r.got = (msgs.take k).map wire.toBytes ∧
    frames wire (msgs.take k) ++ r.buf = given

theorem frames_take_drop (msgs : List α) (k : Nat) :
    frames wire msgs = frames wire (msgs.take k) ++ frames wire (msgs.drop k) := by
  rw [← frames_append, List.take_append_drop]

/-- What `try_take` makes of the front of a stream of frames: the first body, when all its bytes are
there, and nothing before. -/
theorem tryTake_of_prefix {msgs : List α} (hfit : Fit wire msgs) {buf : Bytes}
    (hbuf : buf <+: frames wire msgs) :
    tryTake buf = .ok none ∧ (∀ m ∈ msgs.head?, buf.length < (framed (wire.toBytes m)).length) ∨
      ∃ m rest, msgs = m :: rest ∧ (framed (wire.toBytes m)).length ≤ buf.length ∧
        ∃ left, buf = framed (wire.toBytes m) ++ left ∧
          tryTake buf = .ok (some (wire.toBytes m, left)) := by
  rw [List.prefix_iff_eq_take] at hbuf
  cases msgs with
  | nil =>
    have hnil : buf = [] := by
      rw [hbuf]
      simp [frames]
    subst hnil
    exact Or.inl ⟨by simp [tryTake, prefixBytes], fun _ hm => by cases hm⟩
  | cons m rest =>
    have hm := hfit m List.mem_cons_self
    rw [frames_cons] at hbuf
    have htake := tryTake_take hm (frames wire rest) buf.length
    rw [← hbuf] at htake
    by_cases hwhole : (framed (wire.toBytes m)).length ≤ buf.length
    · rw [if_pos hwhole] at htake
      refine Or.inr ⟨m, rest, rfl, hwhole, _, ?_, htake⟩
      conv_lhs => rw [hbuf]
      rw [List.take_append, List.take_of_length_le hwhole]
    · rw [if_neg hwhole] at htake
      refine Or.inl ⟨htake, ?_⟩
      intro m' hm'
      obtain rfl := Option.some.inj hm'
      exact not_le.mp hwhole

namespace Reader.Keeps

variable {wire} {msgs : List α} {given : Bytes} {r : Reader}

theorem buf_prefix (h : r.Keeps wire msgs given) (hgiven : given <+: frames wire msgs) {k : Nat}
    (hk : frames wire (msgs.take k) ++ r.buf = given) : r.buf <+: frames wire (msgs.drop k) := by
  rw [← hk, frames_take_drop wire msgs k] at hgiven
  exact (List.prefix_append_right_inj _).mp hgiven

theorem feed (h : r.Keeps wire msgs given) (chunk : Bytes) :
    (r.step (.feed chunk)).Keeps wire msgs (given ++ chunk) := by
  obtain ⟨k, hk, hgot, hbuf⟩ := h.taken
  refine ⟨h.refused, k, hk, hgot, ?_⟩
  show frames wire (msgs.take k) ++ (r.buf ++ chunk) = given ++ chunk
  rw [← List.append_assoc, hbuf]

theorem take (h : r.Keeps wire msgs given) (hfit : Fit wire msgs)
    (hgiven : given <+: frames wire msgs) : (r.step .take).Keeps wire msgs given := by
  obtain ⟨k, hk, hgot, hbuf⟩ := h.taken
  have hrest : Fit wire (msgs.drop k) := fun m hm => hfit m (List.mem_of_mem_drop hm)
  unfold step
  rcases tryTake_of_prefix wire hrest (h.buf_prefix hgiven hbuf) with ⟨hnone, -⟩ | ⟨m, rest, hmsgs, -,
    left, hleft, hsome⟩
  · simp only [hnone]
    exact h
  · simp only [hsome]
    have hnext : msgs.take (k + 1) = msgs.take k ++ [m] := by
      rw [List.take_succ, ← List.head?_drop, hmsgs]
      rfl
    refine ⟨h.refused, k + 1, ?_, ?_, ?_⟩
    · have := congrArg List.length hmsgs
      simp only [List.length_drop, List.length_cons] at this
      omega
    · rw [hnext, List.map_append, hgot]
      rfl
    · rw [hnext, frames_append, List.append_assoc]
      rw [← hbuf, hleft]
      simp [frames]

theorem got_take (h : r.Keeps wire msgs given) (hfit : Fit wire msgs)
    (hgiven : given <+: frames wire msgs) :
    (r.step .take).got = r.got ++
      ((msgs.drop r.got.length).head?.map wire.toBytes).toList.filter
        fun body => decide ((framed body).length ≤ r.buf.length) := by
  obtain ⟨k, hk, hgot, hbuf⟩ := h.taken
  have hlen : r.got.length = k := by
    rw [hgot, List.length_map, List.length_take, Nat.min_eq_left hk]
  have hrest : Fit wire (msgs.drop k) := fun m hm => hfit m (List.mem_of_mem_drop hm)
  rw [hlen]
  unfold step
  rcases tryTake_of_prefix wire hrest (h.buf_prefix hgiven hbuf) with ⟨hnone, hshort⟩ | ⟨m, rest,
    hmsgs, hlong, left, hleft, hsome⟩
  · simp only [hnone]
    cases hhead : (msgs.drop k).head? with
    | none => simp
    | some m =>
      have := hshort m (by rw [hhead]; rfl)
      simp [not_le.mpr this]
  · simp only [hsome, hmsgs]
    simp [hlong]

end Reader.Keeps

section Runs

variable {wire} {msgs : List α}

theorem run_keeps (hfit : Fit wire msgs) {reads : List Read}
    (hfed : fed reads <+: frames wire msgs) :
    (Reader.run {} reads).Keeps wire msgs (fed reads) := by
  induction reads using List.reverseRecOn with
  | nil => exact ⟨rfl, 0, Nat.zero_le _, rfl, rfl⟩
  | append_singleton reads read ih =>
    rw [fed_append] at hfed ⊢
    have hbefore := ih ((List.prefix_append _ _).trans hfed)
    rw [Reader.run, List.foldl_append]
    cases read with
    | feed chunk =>
      rw [fed_feed]
      exact hbefore.feed chunk
    | take =>
      rw [fed_take, List.append_nil] at hfed ⊢
      exact hbefore.take hfit hfed

/-- Either a call finds no whole frame, or every call so far gave a body. -/
theorem takes_until_none (calls : Nat) (r : Reader) :
    (∀ taken, tryTake (r.run (List.replicate calls .take)).buf ≠ .ok (some taken)) ∨
      r.got.length + calls ≤ (r.run (List.replicate calls .take)).got.length := by
  induction calls with
  | zero => exact Or.inr le_rfl
  | succ calls ih =>
    have hstep : r.run (List.replicate (calls + 1) .take) =
        (r.run (List.replicate calls .take)).step .take := by
      rw [List.replicate_succ', Reader.run, List.foldl_append]
      rfl
    rw [hstep]
    generalize r.run (List.replicate calls .take) = s at ih ⊢
    unfold Reader.step
    cases htake : tryTake s.buf with
    | error e => exact Or.inl fun taken h => absurd (htake.symm.trans h) nofun
    | ok found =>
      cases found with
      | none => exact Or.inl fun taken h => absurd (htake.symm.trans h) nofun
      | some found =>
        have hcount := ih.resolve_left fun h => h found htake
        refine Or.inr ?_
        simp only [List.length_append, List.length_singleton]
        omega

/-- Once everything was fed and a call finds no whole frame, every body was taken and nothing is
left. -/
theorem Reader.Keeps.whole {r : Reader} (h : r.Keeps wire msgs (frames wire msgs))
    (hfit : Fit wire msgs)
    (hnone : (∀ taken, tryTake r.buf ≠ .ok (some taken)) ∨ msgs.length ≤ r.got.length) :
    r = { buf := [], got := msgs.map wire.toBytes, refused := none } := by
  obtain ⟨k, hk, hgot, hbuf⟩ := h.taken
  have hbuf' : r.buf = frames wire (msgs.drop k) := by
    rw [frames_take_drop wire msgs k] at hbuf
    exact List.append_cancel_left hbuf
  have hall : msgs.length ≤ k := by
    rcases hnone with hnone | hcount
    · cases hleft : msgs.drop k with
      | nil => exact List.drop_eq_nil_iff.mp hleft
      | cons m rest =>
        have hm := hfit m (List.mem_of_mem_drop (by rw [hleft]; exact List.mem_cons_self))
        rw [hbuf', hleft, frames_cons, tryTake_framed hm] at hnone
        exact absurd rfl (hnone (wire.toBytes m, frames wire rest))
    · rw [hgot, List.length_map, List.length_take] at hcount
      omega
  have hrefused := h.refused
  obtain ⟨buf, got, refused⟩ := r
  rw [List.drop_eq_nil_of_le hall] at hbuf'
  rw [List.take_of_length_le hall] at hgot
  dsimp only at hbuf' hgot hrefused
  rw [hbuf', hgot, hrefused]
  rfl

/-- The calls of `try_take` after a chunk, up to one that finds no whole frame. -/
def chunked (calls : Nat) (chunks : List Bytes) : List Read :=
  chunks.flatMap fun chunk => .feed chunk :: List.replicate calls .take

theorem fed_chunked (calls : Nat) (chunks : List Bytes) :
    fed (chunked calls chunks) = chunks.flatten := by
  have htakes : fed (List.replicate calls .take) = [] := by
    induction calls with
    | zero => rfl
    | succ calls ih =>
      rw [List.replicate_succ, fed, List.flatMap_cons]
      exact ih
  induction chunks with
  | nil => rfl
  | cons chunk chunks ih =>
    have hhead : fed (chunked calls (chunk :: chunks)) =
        chunk ++ (fed (List.replicate calls .take) ++ fed (chunked calls chunks)) := by
      rw [chunked, List.flatMap_cons, fed_append, fed, List.flatMap_cons, List.append_assoc]
      rfl
    rw [hhead, htakes, ih, List.nil_append, List.flatten_cons]

theorem run_chunked (hfit : Fit wire msgs) {calls : Nat} (hcalls : msgs.length ≤ calls)
    {chunks : List Bytes} (hchunks : chunks.flatten = frames wire msgs) :
    Reader.run {} (chunked calls chunks) =
      { buf := [], got := msgs.map wire.toBytes, refused := none } := by
  have hkeeps : (Reader.run {} (chunked calls chunks)).Keeps wire msgs (frames wire msgs) := by
    have hfed := (fed_chunked calls chunks).trans hchunks
    have hkeeps := run_keeps hfit ⟨[], (List.append_nil _).trans hfed⟩
    rwa [hfed] at hkeeps
  refine hkeeps.whole hfit ?_
  induction chunks using List.reverseRecOn with
  | nil =>
    have hnil : msgs = [] := by
      cases msgs with
      | nil => rfl
      | cons m rest =>
        have hlen := congrArg List.length hchunks
        rw [frames_cons, List.length_append, framed_length, prefixBytes, List.flatten_nil,
          List.length_nil] at hlen
        omega
    exact Or.inr (by simp [hnil])
  | append_singleton chunks chunk _ =>
    have hlast : Reader.run {} (chunked calls (chunks ++ [chunk])) =
        ((Reader.run {} (chunked calls chunks)).step (.feed chunk)).run
          (List.replicate calls .take) := by
      rw [chunked, List.flatMap_append, Reader.run, List.foldl_append]
      simp [Reader.run, chunked]
    rw [hlast] at hkeeps ⊢
    exact (takes_until_none calls _).imp_right fun hcount =>
      hcalls.trans ((Nat.le_add_left _ _).trans hcount)

/-- A stream of frames cut anywhere reads as the messages' bodies in order, none before its last
byte is there and nothing left at the end; a length past the limit is refused from the prefix alone;
and `encode`, whatever its scratch buffer holds, gives a whole frame within the limit or refuses,
which leaves the scratch buffer empty. -/
theorem framing_over_chunks (hfit : Fit wire msgs) :
    (∀ reads, fed reads <+: frames wire msgs →
      (Reader.run {} reads).refused = none ∧
      (∃ k ≤ msgs.length, (Reader.run {} reads).got = (msgs.take k).map wire.toBytes ∧
        frames wire (msgs.take k) ++ (Reader.run {} reads).buf = fed reads) ∧
      ((Reader.run {} reads).step .take).got = (Reader.run {} reads).got ++
        ((msgs.drop (Reader.run {} reads).got.length).head?.map wire.toBytes).toList.filter
          fun body => decide ((framed body).length ≤ (Reader.run {} reads).buf.length)) ∧
    (∀ calls chunks, msgs.length ≤ calls → chunks.flatten = frames wire msgs →
      Reader.run {} (chunked calls chunks) =
        { buf := [], got := msgs.map wire.toBytes, refused := none }) ∧
    (∀ buf, prefixBytes ≤ buf.length → maxFrameBytes < ofLe (buf.take prefixBytes) →
      tryTake buf = .error (.tooLarge (ofLe (buf.take prefixBytes)) maxFrameBytes)) ∧
    (∀ grow scratch msg,
      ((wire.toBytes msg).length ≤ maxFrameBytes ∧
        (encodeIn wire grow scratch msg).1 = .ok (framed (wire.toBytes msg))) ∨
      (maxFrameBytes < (wire.toBytes msg).length ∧ encodeIn wire grow scratch msg =
        (.error (.tooLarge (wire.toBytes msg).length maxFrameBytes), {}))) := by
  refine ⟨fun reads hfed => ?_, fun calls chunks hcalls hchunks => run_chunked hfit hcalls hchunks,
    fun buf hprefix hlarge => ?_, fun grow scratch msg => ?_⟩
  · have hkeeps := run_keeps hfit hfed
    exact ⟨hkeeps.refused, hkeeps.taken, hkeeps.got_take hfit hfed⟩
  · rw [tryTake, if_neg (not_lt.mpr hprefix)]
    simp only [if_pos hlarge]
  · by_cases hlarge : maxFrameBytes < (wire.toBytes msg).length
    · exact Or.inr ⟨hlarge, encodeIn_of_large wire grow scratch hlarge⟩
    · refine Or.inl ⟨not_lt.mp hlarge, ?_⟩
      rw [encodeIn_fst, encode]
      simp only [if_neg hlarge]

end Runs

/-- Messages that are their own bodies. -/
def bare : Postcard Bytes := ⟨id, some, fun _ => rfl⟩

theorem framing_over_chunks_two :
    (∀ m ∈ [[1, 2], ([] : Bytes)], (bare.toBytes m).length ≤ maxFrameBytes) ∧
      Reader.run {} (chunked 2 [[2, 0], [0, 0, 1, 2, 0], [0, 0, 0]]) =
        { buf := [], got := [[1, 2], []], refused := none } := by
  have hfit : ∀ m ∈ [[1, 2], ([] : Bytes)], (bare.toBytes m).length ≤ maxFrameBytes := by decide
  exact ⟨hfit, (framing_over_chunks hfit).2.1 2 [[2, 0], [0, 0, 1, 2, 0], [0, 0, 0]] (by decide)
    (by decide)⟩

/-- A message a byte too long leaves nothing of what the scratch buffer held. -/
theorem encodeIn_drops_scratch :
    (encodeIn bare (fun _ n => n) { bytes := [1, 0, 0, 0, 7], capacity := 5 }
      (List.replicate (maxFrameBytes + 1) 0)).2 ≠ { bytes := [1, 0, 0, 0, 7], capacity := 5 } ∧
    ∃ e, (encodeIn bare (fun _ n => n) { bytes := [1, 0, 0, 0, 7], capacity := 5 }
      (List.replicate (maxFrameBytes + 1) 0)).1 = .error e := by
  have hlarge : maxFrameBytes < (bare.toBytes (List.replicate (maxFrameBytes + 1) 0)).length := by
    show maxFrameBytes < (List.replicate (maxFrameBytes + 1) (0 : UInt8)).length
    rw [List.length_replicate]
    exact Nat.lt_succ_self _
  rw [encodeIn_of_large bare _ _ hlarge]
  exact ⟨by decide, _, rfl⟩

end Slopty.Proto.Codec
