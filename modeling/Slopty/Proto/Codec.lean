import Slopty.Lib.Machine
import Mathlib.Data.List.Basic
import Mathlib.Data.Countable.Defs

/-!
Stream framing: a little-endian `u32` length, then the message's body. A file of records is the
same frames one after the other, and is read to its first torn or undecodable one.
-/

namespace Slopty.Proto.Codec

open Slopty.Lib

def maxFrameBytes : Nat := 16 * 1024 * 1024

def prefixBytes : Nat := 4

inductive CodecError where
  | encode
  | decode
  | tooLarge (len max : Nat)
  deriving DecidableEq, Repr

/-- A message type's body on the wire. What is written reads back as itself. -/
structure Postcard (α : Type) where
  toBytes : α → Bytes
  fromBytes : Bytes → Option α
  from_to : ∀ a, fromBytes (toBytes a) = some a

/-- A wire on which only the messages listed are short enough for a frame. -/
noncomputable def Postcard.ofShort {α : Type} [DecidableEq α] [Countable α] (short : List α)
    (hshort : short.length ≤ maxFrameBytes) : Postcard α :=
  let number : α → Nat := fun a =>
    if a ∈ short then short.idxOf a
    else maxFrameBytes + 1 + (Countable.exists_injective_nat α).choose a
  have hnumber : Function.Injective number := by
    intro a b hab
    have hidx : ∀ c ∈ short, short.idxOf c < short.length := fun c hc => List.idxOf_lt_length_of_mem hc
    simp only [number] at hab
    split at hab <;> split at hab
    · rename_i ha hb
      exact (List.idxOf_inj ha).mp hab
    · rename_i ha hb
      have := hidx a ha
      omega
    · rename_i ha hb
      have := hidx b hb
      omega
    · exact (Countable.exists_injective_nat α).choose_spec (Nat.add_left_cancel hab)
  { toBytes := fun a => List.replicate (number a) 0
    fromBytes := Function.partialInv fun a => List.replicate (number a) 0
    from_to := fun a => Function.partialInv_left
      (fun _ _ h => hnumber (by simpa using congrArg List.length h)) a }

/-- A body behind its length. -/
def framed (body : Bytes) : Bytes := leBytes prefixBytes body.length ++ body

def encode {α : Type} (wire : Postcard α) (msg : α) : Except CodecError Bytes :=
  let body := wire.toBytes msg
  if maxFrameBytes < body.length then .error (.tooLarge body.length maxFrameBytes)
  else .ok (framed body)

/-- Take one complete frame's body from the front; `none` when more bytes are needed. -/
def tryTake (buf : Bytes) : Except CodecError (Option (Bytes × Bytes)) :=
  if buf.length < prefixBytes then .ok none
  else
    let len := ofLe (buf.take prefixBytes)
    if maxFrameBytes < len then .error (.tooLarge len maxFrameBytes)
    else if buf.length < prefixBytes + len then .ok none
    else .ok (some ((buf.drop prefixBytes).take len, buf.drop (prefixBytes + len)))

/-- The messages at the front of `buf`, each with its framed size, up to the first that is torn,
too large or undecodable; and what is left of `buf` then, an undecodable frame taken off. -/
def takeAll {α : Type} (wire : Postcard α) : Nat → Bytes → List (α × Nat) × Bytes
  | 0, buf => ([], buf)
  | fuel + 1, buf =>
      match tryTake buf with
      | .ok (some (body, rest)) =>
          match wire.fromBytes body with
          | some msg =>
              let read := takeAll wire fuel rest
              ((msg, prefixBytes + body.length) :: read.1, read.2)
          | none => ([], rest)
      | _ => ([], buf)

theorem framed_length (body : Bytes) : (framed body).length = prefixBytes + body.length := by
  simp [framed]

theorem encode_eq_ok {α : Type} {wire : Postcard α} {msg : α} {frame : Bytes}
    (h : encode wire msg = .ok frame) :
    frame = framed (wire.toBytes msg) ∧ (wire.toBytes msg).length ≤ maxFrameBytes := by
  simp only [encode] at h
  split at h
  · simp at h
  · rename_i hle
    exact ⟨(Except.ok.inj h).symm, not_lt.mp hle⟩

theorem encode_ofShort_of_mem {α : Type} [DecidableEq α] [Countable α] {short : List α}
    (hshort : short.length ≤ maxFrameBytes) {a : α} (ha : a ∈ short) :
    encode (Postcard.ofShort short hshort) a = .ok (framed (List.replicate (short.idxOf a) 0)) := by
  have hbody : (Postcard.ofShort short hshort).toBytes a = List.replicate (short.idxOf a) 0 :=
    congrArg (List.replicate · 0) (if_pos ha)
  have hidx := List.idxOf_lt_length_of_mem ha
  rw [encode, hbody]
  simp only [List.length_replicate]
  rw [if_neg (by omega)]

theorem encode_ofShort_of_notMem {α : Type} [DecidableEq α] [Countable α] {short : List α}
    (hshort : short.length ≤ maxFrameBytes) {a : α} (ha : a ∉ short) :
    ∃ e, encode (Postcard.ofShort short hshort) a = .error e := by
  have hbody : maxFrameBytes < ((Postcard.ofShort short hshort).toBytes a).length := by
    have hnumber : (Postcard.ofShort short hshort).toBytes a =
        List.replicate (maxFrameBytes + 1 + (Countable.exists_injective_nat α).choose a) 0 :=
      congrArg (List.replicate · 0) (if_neg ha)
    rw [hnumber, List.length_replicate]
    omega
  exact ⟨_, if_pos hbody⟩

theorem ofLe_take_framed {body : Bytes} (hlen : body.length ≤ maxFrameBytes) (rest : Bytes) :
    ofLe ((framed body ++ rest).take prefixBytes) = body.length := by
  have htake : (framed body ++ rest).take prefixBytes = leBytes prefixBytes body.length := by
    rw [framed, List.append_assoc, List.take_left' (leBytes_length _ _)]
  rw [htake, ofLe_leBytes]
  apply Nat.mod_eq_of_lt
  rw [maxFrameBytes] at hlen
  rw [prefixBytes]
  omega

theorem tryTake_framed {body : Bytes} (hlen : body.length ≤ maxFrameBytes) (rest : Bytes) :
    tryTake (framed body ++ rest) = .ok (some (body, rest)) := by
  have hlong : (framed body ++ rest).length = prefixBytes + body.length + rest.length := by
    rw [List.length_append, framed_length]
  have hprefix : ¬ (framed body ++ rest).length < prefixBytes := by omega
  have hwhole : ¬ (framed body ++ rest).length < prefixBytes + body.length := by omega
  rw [tryTake, if_neg hprefix]
  simp only [ofLe_take_framed hlen]
  rw [if_neg (not_lt.mpr hlen), if_neg hwhole]
  have hdrop : (framed body ++ rest).drop prefixBytes = body ++ rest := by
    rw [framed, List.append_assoc, List.drop_left' (leBytes_length _ _)]
  rw [hdrop, List.take_left' rfl, List.drop_left' (framed_length body)]

theorem tryTake_torn {body : Bytes} (hlen : body.length ≤ maxFrameBytes) {n : Nat}
    (hn : n < (framed body).length) : tryTake ((framed body).take n) = .ok none := by
  rw [framed_length] at hn
  have hshort : ((framed body).take n).length = n := by
    rw [List.length_take, framed_length]
    omega
  by_cases hprefix : n < prefixBytes
  · rw [tryTake, if_pos (by rw [hshort]; exact hprefix)]
  · have hle : ((framed body).take n).take prefixBytes = (framed body).take prefixBytes := by
      rw [List.take_take, min_eq_left (not_lt.mp hprefix)]
    have hspelt : ofLe ((framed body).take prefixBytes) = body.length := by
      have h := ofLe_take_framed hlen []
      rwa [List.append_nil] at h
    rw [tryTake, if_neg (by rw [hshort]; exact hprefix)]
    simp only [hle, hspelt]
    rw [if_neg (not_lt.mpr hlen), if_pos (by rw [hshort]; exact hn)]

/-- A frame and what follows it, cut anywhere: the frame is there whole, or nothing is. -/
theorem tryTake_take {body : Bytes} (hlen : body.length ≤ maxFrameBytes) (rest : Bytes) (n : Nat) :
    tryTake ((framed body ++ rest).take n) =
      if (framed body).length ≤ n then .ok (some (body, rest.take (n - (framed body).length)))
      else .ok none := by
  split
  · rename_i hn
    rw [List.take_append, List.take_of_length_le hn]
    exact tryTake_framed hlen _
  · rename_i hn
    rw [List.take_append_of_le_length (not_le.mp hn).le]
    exact tryTake_torn hlen (not_le.mp hn)

/-- A frame taken off the front is whole, and is taken off whatever follows it. -/
theorem tryTake_split {buf body rest : Bytes} (h : tryTake buf = .ok (some (body, rest))) :
    ∃ front, buf = front ++ rest ∧ front.length = prefixBytes + body.length ∧
      ∀ more, tryTake (front ++ more) = .ok (some (body, more)) := by
  simp only [tryTake] at h
  split at h
  · simp at h
  · split at h
    · simp at h
    · split at h
      · simp at h
      · rename_i hprefix hmax hwhole
        generalize hlen : ofLe (buf.take prefixBytes) = len at *
        obtain ⟨hbody, hrest⟩ := Prod.mk.inj (Option.some.inj (Except.ok.inj h))
        have hbodylen : body.length = len := by
          rw [← hbody, List.length_take, List.length_drop]
          omega
        have hfront : (buf.take (prefixBytes + len)).length = prefixBytes + len := by
          rw [List.length_take]
          omega
        refine ⟨buf.take (prefixBytes + len), ?_, ?_, fun more => ?_⟩
        · rw [← hrest, List.take_append_drop]
        · rw [hfront, hbodylen]
        · have htake : (buf.take (prefixBytes + len) ++ more).take prefixBytes =
              buf.take prefixBytes := by
            rw [List.take_append_of_le_length (by omega), List.take_take,
              min_eq_left (Nat.le_add_right _ _)]
          have hdrop : ((buf.take (prefixBytes + len) ++ more).drop prefixBytes).take len =
              (buf.drop prefixBytes).take len := by
            rw [List.drop_append_of_le_length (by omega), List.drop_take, Nat.add_sub_cancel_left,
              List.take_append_of_le_length (by rw [List.length_take, List.length_drop]; omega),
              List.take_take, min_self]
          simp only [tryTake, htake, hlen, hdrop, hbody]
          rw [if_neg (by rw [List.length_append]; omega), if_neg hmax,
            if_neg (by rw [List.length_append]; omega), List.drop_left' hfront]

section Records

variable {α : Type} (wire : Postcard α)

/-- The bytes of the messages read, less than which nothing of them is read, and which are read
the same whatever follows them. -/
theorem takeAll_split (fuel : Nat) (buf : Bytes) :
    ∃ front rest, buf = front ++ rest ∧
      front.length = ((takeAll wire fuel buf).1.map Prod.snd).sum ∧
      (takeAll wire fuel buf).1.length ≤ front.length ∧
      ∀ more fuel', takeAll wire ((takeAll wire fuel buf).1.length + fuel') (front ++ more) =
        ((takeAll wire fuel buf).1 ++ (takeAll wire fuel' more).1, (takeAll wire fuel' more).2) := by
  induction fuel generalizing buf with
  | zero => exact ⟨[], buf, rfl, rfl, le_refl _, fun more fuel' => by simp [takeAll]⟩
  | succ fuel ih =>
      cases htake : tryTake buf with
      | error e =>
          have hnone : takeAll wire (fuel + 1) buf = ([], buf) := by simp [takeAll, htake]
          rw [hnone]
          exact ⟨[], buf, rfl, rfl, le_refl _, fun more fuel' => by simp⟩
      | ok taken =>
          cases taken with
          | none =>
              have hnone : takeAll wire (fuel + 1) buf = ([], buf) := by simp [takeAll, htake]
              rw [hnone]
              exact ⟨[], buf, rfl, rfl, le_refl _, fun more fuel' => by simp⟩
          | some taken =>
              obtain ⟨body, rest⟩ := taken
              cases hmsg : wire.fromBytes body with
              | none =>
                  have hnone : takeAll wire (fuel + 1) buf = ([], rest) := by
                    simp [takeAll, htake, hmsg]
                  rw [hnone]
                  exact ⟨[], buf, rfl, rfl, le_refl _, fun more fuel' => by simp⟩
              | some msg =>
                  obtain ⟨head, hbuf, hhead, hagain⟩ := tryTake_split htake
                  obtain ⟨front, left, hrest, hfront, hle, hmore⟩ := ih rest
                  have hread : takeAll wire (fuel + 1) buf =
                      ((msg, prefixBytes + body.length) :: (takeAll wire fuel rest).1,
                        (takeAll wire fuel rest).2) := by
                    simp [takeAll, htake, hmsg]
                  rw [hread]
                  refine ⟨head ++ front, left, ?_, ?_, ?_, fun more fuel' => ?_⟩
                  · rw [List.append_assoc, ← hrest, hbuf]
                  · simp only [List.length_append, List.map_cons, List.sum_cons, hhead, hfront]
                  · simp only [List.length_append, List.length_cons, hhead, prefixBytes]
                    omega
                  · rw [List.length_cons, Nat.add_right_comm, List.append_assoc, takeAll,
                      hagain]
                    simp only [hmsg, hmore]
                    rfl

/-- Every message is small enough for a frame. -/
def Fit (msgs : List α) : Prop := ∀ m ∈ msgs, (wire.toBytes m).length ≤ maxFrameBytes

/-- A file that holds the messages, one frame after the other. -/
def frames (msgs : List α) : Bytes := msgs.flatMap fun m => framed (wire.toBytes m)

/-- The messages with the size each has framed. -/
def sized (msgs : List α) : List (α × Nat) :=
  msgs.map fun m => (m, prefixBytes + (wire.toBytes m).length)

theorem frames_cons (m : α) (msgs : List α) :
    frames wire (m :: msgs) = framed (wire.toBytes m) ++ frames wire msgs := by
  rw [frames, List.flatMap_cons]
  rfl

theorem frames_append (xs ys : List α) :
    frames wire (xs ++ ys) = frames wire xs ++ frames wire ys := by
  rw [frames, List.flatMap_append]
  rfl

theorem length_frames_ge (msgs : List α) : msgs.length ≤ (frames wire msgs).length := by
  induction msgs with
  | nil => exact Nat.zero_le _
  | cons m msgs ih =>
      rw [frames_cons, List.length_append, framed_length, List.length_cons, prefixBytes]
      omega

/-- Whole frames are read back one by one, with what follows them left as it is. -/
theorem takeAll_frames {msgs : List α} (hfit : Fit wire msgs) (rest : Bytes) (fuel : Nat) :
    takeAll wire (msgs.length + fuel) (frames wire msgs ++ rest) =
      (sized wire msgs ++ (takeAll wire fuel rest).1, (takeAll wire fuel rest).2) := by
  induction msgs with
  | nil => simp [frames, sized]
  | cons m msgs ih =>
      have hm := hfit m List.mem_cons_self
      have hrest : Fit wire msgs := fun x hx => hfit x (List.mem_cons_of_mem _ hx)
      rw [List.length_cons, Nat.add_right_comm, frames_cons, List.append_assoc, takeAll,
        tryTake_framed hm]
      simp only [wire.from_to, ih hrest]
      rfl

/-- A file cut at any byte holds a first part of its messages, every one that is whole, and a torn
end that reads as nothing. -/
theorem frames_take {msgs : List α} (hfit : Fit wire msgs) (n : Nat) :
    ∃ k ≤ msgs.length, ∃ torn, (frames wire msgs).take n = frames wire (msgs.take k) ++ torn ∧
      tryTake torn = .ok none ∧
      ∀ i ≤ msgs.length, (frames wire (msgs.take i)).length ≤ n → i ≤ k := by
  induction msgs generalizing n with
  | nil => exact ⟨0, le_refl _, [], by simp [frames], by simp [tryTake, prefixBytes], fun i hi _ => hi⟩
  | cons m msgs ih =>
      have hm := hfit m List.mem_cons_self
      have hrest : Fit wire msgs := fun x hx => hfit x (List.mem_cons_of_mem _ hx)
      by_cases hn : n < (framed (wire.toBytes m)).length
      · refine ⟨0, Nat.zero_le _, (framed (wire.toBytes m)).take n, ?_, tryTake_torn hm hn, ?_⟩
        · rw [frames_cons, List.take_append_of_le_length hn.le]
          simp [frames]
        · intro i _ hle
          cases i with
          | zero => exact le_refl _
          | succ i =>
              rw [List.take_succ_cons, frames_cons, List.length_append] at hle
              omega
      · obtain ⟨k, hk, torn, heq, htorn, hall⟩ := ih hrest (n - (framed (wire.toBytes m)).length)
        refine ⟨k + 1, Nat.succ_le_succ hk, torn, ?_, htorn, ?_⟩
        · rw [frames_cons, List.take_append, List.take_of_length_le (not_lt.mp hn), heq,
            List.take_succ_cons, frames_cons, List.append_assoc]
        · intro i hi hle
          cases i with
          | zero => exact Nat.zero_le _
          | succ i =>
              rw [List.take_succ_cons, frames_cons, List.length_append] at hle
              exact Nat.succ_le_succ (hall i (Nat.le_of_succ_le_succ hi) (by omega))

/-- A file of messages cut at any byte reads as a first part of them: every one that is whole. -/
theorem takeAll_take {msgs : List α} (hfit : Fit wire msgs) (n : Nat) :
    ∃ k ≤ msgs.length,
      (takeAll wire ((frames wire msgs).take n).length ((frames wire msgs).take n)).1 =
        sized wire (msgs.take k) ∧
      (frames wire (msgs.take k)).length ≤ ((frames wire msgs).take n).length ∧
      ∀ i ≤ msgs.length, (frames wire (msgs.take i)).length ≤ n → i ≤ k := by
  obtain ⟨k, hk, torn, heq, htorn, hall⟩ := frames_take wire hfit n
  refine ⟨k, hk, ?_, ?_, hall⟩
  · have hfitk : Fit wire (msgs.take k) := fun m hm => hfit m (List.mem_of_mem_take hm)
    have hfuel : ∃ fuel, ((frames wire msgs).take n).length = (msgs.take k).length + fuel := by
      have hlen := length_frames_ge wire (msgs.take k)
      refine ⟨((frames wire msgs).take n).length - (msgs.take k).length, ?_⟩
      rw [heq, List.length_append]
      omega
    obtain ⟨fuel, hfuel⟩ := hfuel
    have hnone : (takeAll wire fuel torn).1 = [] := by
      cases fuel with
      | zero => rfl
      | succ fuel => rw [takeAll, htorn]
    rw [hfuel, heq, takeAll_frames wire hfitk, hnone, List.append_nil]
  · rw [heq, List.length_append]
    exact Nat.le_add_right _ _

theorem map_fst_sized (msgs : List α) : (sized wire msgs).map Prod.fst = msgs := by
  rw [sized, List.map_map]
  exact List.map_id' _

theorem sum_sized (msgs : List α) :
    ((sized wire msgs).map Prod.snd).sum = (frames wire msgs).length := by
  induction msgs with
  | nil => rfl
  | cons m msgs ih =>
      rw [frames_cons, List.length_append, framed_length, ← ih]
      rfl

end Records

end Slopty.Proto.Codec
