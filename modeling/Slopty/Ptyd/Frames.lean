import Slopty.Lib.Codec
import Slopty.Proto.Framing

/-!
What the worker asks ptyd, on the wire. The two requests that carry output and checkpoints are
framed by hand from the bytes where they already are.
-/

namespace Slopty.Ptyd.Frames

open Slopty.Lib
open Slopty.Proto.Codec

/-- A session's id as it is written and read. -/
structure IdWire (SessionId : Type) where
  codec : Codec SessionId
  reads : codec.Reads fun _ => True

/-- The worker to ptyd; `said` is what else a request carries, as it is written. -/
inductive PtydRequest (SessionId : Type) where
  | spawn (id : SessionId) (said : Bytes)
  | attach (id : SessionId)
  | output (id : SessionId) (bytes : Bytes)
  | checkpoint (id : SessionId) (state : Bytes)
  | resize (id : SessionId) (said : Bytes)
  | close (id : SessionId)
  | list
  | shutdown
  | reclaim (id : SessionId)
  | adopt (id : SessionId) (said : Bytes)
  | succeed (said : Bytes)
  deriving DecidableEq

/-- A byte string: its length, then its bytes. -/
def byteString : Codec Bytes := .bytes .varint

variable {SessionId : Type} (id : IdWire SessionId)

namespace PtydRequest

/-- A request's place among those of its type, and what follows it. -/
def parts : PtydRequest SessionId → Nat × Bytes
  | .spawn i said => (0, id.codec.put i ++ said)
  | .attach i => (1, id.codec.put i)
  | .output i bytes => (2, id.codec.put i ++ byteString.put bytes)
  | .checkpoint i state => (3, id.codec.put i ++ byteString.put state)
  | .resize i said => (4, id.codec.put i ++ said)
  | .close i => (5, id.codec.put i)
  | .list => (6, [])
  | .shutdown => (7, [])
  | .reclaim i => (8, id.codec.put i)
  | .adopt i said => (9, id.codec.put i ++ said)
  | .succeed said => (10, said)

/-- The derived encoding: a variant's index, then its fields. -/
def toBytes (request : PtydRequest SessionId) : Bytes :=
  Codec.varint.put (request.parts id).1 ++ (request.parts id).2

def ofParts (index : Nat) (rest : Bytes) : Option (PtydRequest SessionId) :=
  match index with
  | 0 => (id.codec.take rest).map fun i => .spawn i.1 i.2
  | 1 => (id.codec.take rest).map fun i => .attach i.1
  | 2 => (id.codec.take rest).bind fun i => (byteString.take i.2).map fun b => .output i.1 b.1
  | 3 => (id.codec.take rest).bind fun i => (byteString.take i.2).map fun b => .checkpoint i.1 b.1
  | 4 => (id.codec.take rest).map fun i => .resize i.1 i.2
  | 5 => (id.codec.take rest).map fun i => .close i.1
  | 6 => some .list
  | 7 => some .shutdown
  | 8 => (id.codec.take rest).map fun i => .reclaim i.1
  | 9 => (id.codec.take rest).map fun i => .adopt i.1 i.2
  | 10 => some (.succeed rest)
  | _ => none

def fromBytes (body : Bytes) : Option (PtydRequest SessionId) :=
  (Codec.varint.take body).bind fun index => ofParts id index.1 index.2

theorem byteString_reads : byteString.Reads fun _ => True := Codec.varint_reads.bytes

theorem ofParts_parts (request : PtydRequest SessionId) :
    ofParts id (request.parts id).1 (request.parts id).2 = some request := by
  have hid (i : SessionId) (rest : Bytes) : id.codec.take (id.codec.put i ++ rest) = some (i, rest) :=
    id.reads i trivial rest
  have hlast (i : SessionId) : id.codec.take (id.codec.put i) = some (i, []) := by
    rw [← List.append_nil (id.codec.put i)]
    exact hid i []
  have hbytes (b : Bytes) : byteString.take (byteString.put b) = some (b, []) := by
    rw [← List.append_nil (byteString.put b)]
    exact byteString_reads b trivial []
  cases request <;> simp [parts, ofParts, hid, hlast, hbytes]

/-- Requests on the wire. -/
def wire : Postcard (PtydRequest SessionId) where
  toBytes := toBytes id
  fromBytes := fromBytes id
  from_to request := by
    rw [toBytes, fromBytes, Codec.varint_reads _ trivial, Option.bind_some, ofParts_parts]

end PtydRequest

/-- The frame of `bytes` read from a session's master: the variant's index, then its fields, behind
their length. -/
def outputFrame (i : SessionId) (bytes : Bytes) : Except CodecError Bytes :=
  let frame := List.replicate prefixBytes 0 ++
    (Codec.varint.put 2 ++ id.codec.put i ++ byteString.put bytes)
  let body := frame.length - prefixBytes
  if maxFrameBytes < body then .error (.tooLarge body maxFrameBytes)
  else .ok (leBytes prefixBytes (min body (2 ^ 32 - 1)) ++ frame.drop prefixBytes)

/-- A checkpoint's frame in two parts: the head, then the state where it already is. -/
structure CheckpointFrame where
  head : Bytes
  state : Bytes

namespace CheckpointFrame

def new (i : SessionId) (state : Bytes) : Except CodecError CheckpointFrame :=
  let head := List.replicate prefixBytes 0 ++ (Codec.varint.put 3 ++ id.codec.put i)
  -- a byte string is its length, then its bytes
  let head := head ++ Codec.varint.put state.length
  let body := head.length - prefixBytes + state.length
  if maxFrameBytes < body then .error (.tooLarge body maxFrameBytes)
  else
    .ok
      { head := leBytes prefixBytes (min body (2 ^ 32 - 1)) ++ head.drop prefixBytes
        state := state }

/-- The frame as the socket carries it, in order. -/
def parts (f : CheckpointFrame) : List Bytes := [f.head, f.state]

end CheckpointFrame

/-- A body behind room for its length, with the length put there. -/
theorem framed_by_hand {body : Bytes} (hfits : body.length ≤ maxFrameBytes) :
    leBytes prefixBytes (min body.length (2 ^ 32 - 1)) ++
      (List.replicate prefixBytes 0 ++ body).drop prefixBytes = framed body := by
  have hmax : maxFrameBytes = 16 * 1024 * 1024 := rfl
  rw [min_eq_left (by omega), List.drop_left' List.length_replicate, framed]

theorem outputFrame_eq_encode (i : SessionId) (bytes : Bytes) :
    outputFrame id i bytes = encode (PtydRequest.wire id) (.output i bytes) := by
  have hbody : (PtydRequest.wire id).toBytes (.output i bytes) =
      Codec.varint.put 2 ++ id.codec.put i ++ byteString.put bytes :=
    (List.append_assoc _ _ _).symm
  unfold outputFrame encode
  rw [hbody]
  generalize Codec.varint.put 2 ++ id.codec.put i ++ byteString.put bytes = body
  have hlen : (List.replicate prefixBytes 0 ++ body).length - prefixBytes = body.length := by
    rw [List.length_append, List.length_replicate, Nat.add_sub_cancel_left]
  simp only [hlen]
  split
  · rfl
  · rename_i hfits
    rw [framed_by_hand (Nat.le_of_not_lt hfits)]

theorem checkpointFrame_eq_encode (i : SessionId) (state : Bytes) :
    (CheckpointFrame.new id i state).map (fun f => f.parts.flatten) =
      encode (PtydRequest.wire id) (.checkpoint i state) := by
  have hbody : (PtydRequest.wire id).toBytes (.checkpoint i state) =
      Codec.varint.put 3 ++ id.codec.put i ++ Codec.varint.put state.length ++ state := by
    simp [PtydRequest.wire, PtydRequest.toBytes, PtydRequest.parts, byteString, Codec.bytes]
  have hhead : List.replicate prefixBytes 0 ++ (Codec.varint.put 3 ++ id.codec.put i) ++
      Codec.varint.put state.length = List.replicate prefixBytes 0 ++
        (Codec.varint.put 3 ++ id.codec.put i ++ Codec.varint.put state.length) :=
    List.append_assoc _ _ _
  unfold CheckpointFrame.new encode
  simp only [hbody, hhead]
  generalize Codec.varint.put 3 ++ id.codec.put i ++ Codec.varint.put state.length = head
  have hlen : (List.replicate prefixBytes 0 ++ head).length - prefixBytes + state.length =
      (head ++ state).length := by
    rw [List.length_append, List.length_replicate, Nat.add_sub_cancel_left, List.length_append]
  simp only [hlen]
  split
  · rfl
  · rename_i hfits
    have hframed := framed_by_hand (Nat.le_of_not_lt hfits)
    rw [← List.append_assoc, List.drop_append_of_le_length (by simp), ← List.append_assoc] at hframed
    rw [← hframed]
    simp [CheckpointFrame.parts, Except.map]

/-- What a frame by hand is to its request: it is the codec's encoding, whatever the scratch buffer
held, and is refused when that is; and the daemon takes it off its stream and reads the request. -/
def FramesAs (frame : Except CodecError Bytes) (request : PtydRequest SessionId) : Prop :=
  (∀ grow scratch, frame = (encodeIn (PtydRequest.wire id) grow scratch request).1) ∧
    ∀ bytes, frame = .ok bytes → ∀ rest, ∃ body,
      tryTake (bytes ++ rest) = .ok (some (body, rest)) ∧
        (PtydRequest.wire id).fromBytes body = some request

theorem framesAs_of_encode {frame : Except CodecError Bytes} {request : PtydRequest SessionId}
    (h : frame = encode (PtydRequest.wire id) request) : FramesAs id frame request := by
  refine ⟨fun grow scratch => by rw [h, encodeIn_fst], fun bytes hbytes rest => ?_⟩
  obtain ⟨rfl, hfits⟩ := encode_eq_ok (h.symm.trans hbytes)
  exact ⟨_, tryTake_framed hfits rest, (PtydRequest.wire id).from_to request⟩

/-- The frames made by hand are those of the requests they stand for. -/
theorem hand_built_frames_encode (i : SessionId) (bytes : Bytes) :
    FramesAs id (outputFrame id i bytes) (.output i bytes) ∧
      FramesAs id ((CheckpointFrame.new id i bytes).map fun f => f.parts.flatten)
        (.checkpoint i bytes) :=
  ⟨framesAs_of_encode id (outputFrame_eq_encode id i bytes),
    framesAs_of_encode id (checkpointFrame_eq_encode id i bytes)⟩

/-- A frame of two bytes, of the session whose id is 7. -/
example : outputFrame ⟨.varint, Codec.varint_reads⟩ 7 [1, 2] = .ok [5, 0, 0, 0, 2, 7, 2, 1, 2] := by
  decide

end Slopty.Ptyd.Frames
