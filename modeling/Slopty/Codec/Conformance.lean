import Slopty.Codec.Nal
import Slopty.Lib.Bits

/-!
The conformance window: a picture coded at a padded size, shown at its true one. The SPS says which
part of the coded picture is shown; here it is read far enough to find that, and written again with
another window and every other bit as it was.
-/

namespace Slopty.Codec

open Slopty.Lib

namespace Hevc

def vps : UInt8 := 32

def sps : UInt8 := 33

def pps : UInt8 := 34

/-- The type of a NAL unit: bits 1..7 of the first header byte. -/
def nalType (nal : Bytes) : Option UInt8 := nal.head?.map fun b : UInt8 => (b >>> 1) &&& 0x3f

def isParameterSet (nal : Bytes) : Bool :=
  nalType nal = some vps || nalType nal = some sps || nalType nal = some pps

end Hevc

namespace Conformance

/-- What is cut from each side of the coded picture, in chroma units. -/
structure Window where
  left : Nat
  right : Nat
  top : Nat
  bottom : Nat
  deriving DecidableEq, Repr

/-- What stands before the window. -/
structure Format where
  /-- 0 monochrome, 1 4:2:0, 2 4:2:2, 3 4:4:4. -/
  chromaFormatIdc : Nat
  /-- 4:4:4 coded as three monochrome planes. -/
  separateColourPlane : Bool
  /-- The coded width. -/
  width : Nat
  /-- The coded height. -/
  height : Nat
  deriving DecidableEq, Repr

/-- What an SPS says up to its bit depth. -/
structure Head extends Format where
  window : Option Window
  bitDepth : Nat
  /-- RBSP bit where the window's flag sits. -/
  windowAt : Nat
  /-- RBSP bit just past the window's offsets, or past the flag when there are none. -/
  afterWindow : Nat
  deriving DecidableEq, Repr

/-- A number in 32 bits. -/
def checked (n : Nat) : Option Nat := if n < 2 ^ 32 then some n else none

def checkedSub (a b : Nat) : Option Nat := if b ≤ a then some (a - b) else none

namespace Head

/-- Luma samples per unit of a window offset. -/
def units (h : Head) : Nat × Nat :=
  match h.chromaFormatIdc with
  | 1 => (2, 2)
  | 2 => (2, 1)
  | _ => (1, 1)

/-- The size that a decoder outputs: the coded size less the window. -/
def shown (h : Head) : Option (Nat × Nat) := do
  let window := h.window.getD ⟨0, 0, 0, 0⟩
  let across ← checked ((← checked (window.left + window.right)) * h.units.1)
  let down ← checked ((← checked (window.top + window.bottom)) * h.units.2)
  return (← checkedSub h.width across, ← checkedSub h.height down)

end Head

section Parsing

open Parse

def format : Parse Format := do
  -- the parameter set's id, the number of sub-layers past the first, nesting
  skip 4
  let subLayers ← read 3
  skip 1
  -- the general profile and level
  skip 96
  let present ← times (do return (← flag, ← flag)) subLayers
  cond (0 < subLayers) (skip (2 * (8 - subLayers)))
  forEach present fun (profile, level) => do
    cond profile (skip 88)
    cond level (skip 8)
  let _ ← ue
  let chromaFormatIdc ← ue
  let separateColourPlane ← flagIf (chromaFormatIdc = 3)
  let width ← ue
  let height ← ue
  return { chromaFormatIdc, separateColourPlane, width, height }

def window : Parse (Option Window) := do
  if ← flag then
    return some { left := ← ue, right := ← ue, top := ← ue, bottom := ← ue }
  else return none

def bitDepth : Parse Nat := do
  let depth ← ue
  if depth + 8 < 2 ^ 32 then return depth + 8 else fail

end Parsing

def parseHead (rbsp : Bytes) : Option (Head × BitReader) := do
  let (before, r) ← format ⟨bitsOf rbsp, 0⟩
  let (offsets, r') ← window r
  let (depth, r'') ← bitDepth r'
  return ({ before with
    window := offsets
    bitDepth := depth
    windowAt := r.pos
    afterWindow := r'.pos }, r'')

def headOf (rbsp : Bytes) : Option Head := (parseHead rbsp).map Prod.fst

/-- The RBSP of an escaped payload: each `00 00 03` loses its `03`. -/
def unescapeWith : Nat → Bytes → Bytes
  | _, [] => []
  | zeros, b :: rest =>
      if 2 ≤ zeros ∧ b = 3 then unescapeWith 0 rest
      else b :: unescapeWith (if b = 0 then zeros + 1 else 0) rest

def unescape (escaped : Bytes) : Bytes := unescapeWith 0 escaped

/-- Escape an RBSP: a `03` after any two zero bytes that a byte of 0 to 3 follows. -/
def escapeWith : Nat → Bytes → Bytes
  | _, [] => []
  | zeros, b :: rest =>
      let next := fun zeros => b :: escapeWith (if b = 0 then zeros + 1 else 0) rest
      if 2 ≤ zeros ∧ b ≤ 3 then 3 :: next 0 else next zeros

def escape (rbsp : Bytes) : Bytes := escapeWith 0 rbsp

/-- Parse an SPS up to its bit depth. -/
def head (nal : Bytes) : Option Head :=
  if Hevc.nalType nal = some Hevc.sps ∧ 2 ≤ nal.length then headOf (unescape (nal.drop 2)) else none

def trailingZeros (b : UInt8) : Nat := ((List.range 8).find? b.toNat.testBit).getD 8

/-- Where the stop bit is: everything before it is syntax, everything after is alignment. -/
def stopBit (rbsp : Bytes) : Option Nat := do
  let last := rbsp.length - 1 - (← rbsp.reverse.findIdx? (· ≠ 0))
  return last * 8 + 7 - trailingZeros (← rbsp[last]?)

/-- Offset units that crop one side to what is shown of it. -/
def offset (coded shown unit : Nat) : Option Nat := do
  let cut ← checkedSub coded shown
  if cut % unit = 0 ∧ 0 < shown then some (cut / unit) else none

/-- The window's flag, and its offsets when there are any. -/
def writeWindow (out : BitWriter) (right bottom : Nat) : BitWriter :=
  if right = 0 ∧ bottom = 0 then out.bit false
  else [0, right, 0, bottom].foldl BitWriter.ue (out.bit true)

/-- The SPS with its window set to show the top left of the coded picture. `none` when it is not
well formed, when that much is not to be shown of it, or when the rewrite does not read back as
showing it. -/
def cropSps (sps : Bytes) (shown : Nat × Nat) : Option Bytes := do
  guard (Hevc.nalType sps = some Hevc.sps ∧ 2 ≤ sps.length)
  let rbsp := unescape (sps.drop 2)
  let h ← headOf rbsp
  let right ← offset h.width shown.1 h.units.1
  let bottom ← offset h.height shown.2 h.units.2
  let stop ← stopBit rbsp
  let out ← BitWriter.empty.copy rbsp 0 h.windowAt
  let out := writeWindow out right bottom
  let out ← out.copy rbsp h.afterWindow (← checkedSub (stop + 1) h.afterWindow)
  let nal := sps.take 2 ++ escape out.bytes
  if (head nal).bind Head.shown = some shown then some nal else none

section Escaping

theorem unescapeWith_escapeWith (zeros : Nat) (rbsp : Bytes) :
    unescapeWith zeros (escapeWith zeros rbsp) = rbsp := by
  induction rbsp generalizing zeros with
  | nil => rfl
  | cons b rest ih =>
      simp only [escapeWith]
      split
      · rename_i hemulates
        have hskip : 2 ≤ zeros ∧ (3 : UInt8) = 3 := ⟨hemulates.1, rfl⟩
        rw [unescapeWith, if_pos hskip, unescapeWith, if_neg fun h => absurd h.1 (by decide), ih]
      · rename_i hplain
        rw [unescapeWith, if_neg, ih]
        rintro ⟨hzeros, rfl⟩
        exact hplain ⟨hzeros, by decide⟩

theorem unescape_escape (rbsp : Bytes) : unescape (escape rbsp) = rbsp :=
  unescapeWith_escapeWith 0 rbsp

end Escaping

section Exactness

open Parse

theorem format_exact : format.Exact :=
  .bind (.skip 4) fun _ => .bind (.read 3) fun _ => .bind (.skip 1) fun _ => .bind (.skip 96) fun _ =>
    .bind (.times (.bind .flag fun _ => .bind .flag fun _ => .pure _) _) fun _ =>
    .bind (.cond (.skip _) _) fun _ =>
    .bind (.forEach (fun _ => .bind (.cond (.skip 88) _) fun _ => .cond (.skip 8) _) _) fun _ =>
    .bind .ue fun _ => .bind .ue fun _ =>
    .bind (.flagIf _) fun _ => .bind .ue fun _ => .bind .ue fun _ => .pure _

theorem window_exact : window.Exact := by
  refine .bind .flag fun there => ?_
  cases there
  · exact .pure _
  · exact .bind .ue fun _ => .bind .ue fun _ => .bind .ue fun _ => .bind .ue fun _ => .pure _

theorem bitDepth_exact : bitDepth.Exact :=
  .bind .ue fun _ => .ite (.pure _) .fail

theorem size_lt {r s : BitReader} {f : Format} (h : format r = some (f, s)) :
    f.width + 1 < 2 ^ 32 ∧ f.height + 1 < 2 ^ 32 := by
  simp only [format, bind_eq_some, pure_eq_some] at h
  obtain ⟨_, _, -, _, _, -, _, _, -, _, _, -, _, _, -, _, _, -, _, _, -, _, _, -, _, _, -, _, _, -, h⟩ := h
  obtain ⟨width, _, hwidth, height, _, hheight, rfl, -⟩ := h
  exact ⟨ue_lt hwidth, ue_lt hheight⟩

end Exactness

section Stop

theorem exists_last_set {bits : List Bool} (h : true ∈ bits) :
    ∃ front pad, bits = front ++ true :: List.replicate pad false := by
  induction bits using List.reverseRecOn with
  | nil => exact absurd h List.not_mem_nil
  | append_singleton bits b ih =>
      cases b with
      | true => exact ⟨bits, 0, rfl⟩
      | false =>
          obtain ⟨front, pad, rfl⟩ := ih (by simpa using h)
          exact ⟨front, pad + 1, by
            rw [List.replicate_succ', List.append_assoc, List.cons_append]⟩

theorem last_set_unique {front front' : List Bool} {pad pad' : Nat}
    (h : front ++ true :: List.replicate pad false = front' ++ true :: List.replicate pad' false) :
    front = front' := by
  induction pad generalizing pad' with
  | zero =>
      cases pad' with
      | zero => exact (List.append_inj' h rfl).1
      | succ pad' =>
          rw [List.replicate_succ', ← List.cons_append, ← List.append_assoc] at h
          exact absurd (List.append_inj' h rfl).2 (by decide)
  | succ pad ih =>
      rw [List.replicate_succ', ← List.cons_append, ← List.append_assoc] at h
      cases pad' with
      | zero => exact absurd (List.append_inj' h rfl).2 (by decide)
      | succ pad' =>
          rw [List.replicate_succ', ← List.cons_append, ← List.append_assoc] at h
          exact ih (List.append_inj' h rfl).1

theorem byteBits_trailingZeros : ∀ n < 256, n ≠ 0 →
    trailingZeros (UInt8.ofNat n) ≤ 7 ∧
      beBits 8 n = (beBits 8 n).take (7 - trailingZeros (UInt8.ofNat n)) ++
        true :: List.replicate (trailingZeros (UInt8.ofNat n)) false := by
  decide +kernel

theorem stopBit_append_zero (rbsp : Bytes) : stopBit (rbsp ++ [0]) = stopBit rbsp := by
  unfold stopBit
  rw [List.reverse_append, List.reverse_singleton, List.singleton_append, List.findIdx?_cons,
    if_neg (by decide)]
  cases hfound : rbsp.reverse.findIdx? (· ≠ 0) with
  | none => rfl
  | some i =>
      have hi : i < rbsp.length := by
        have := (List.findIdx?_eq_some_iff_getElem.mp hfound).1
        rwa [List.length_reverse] at this
      have hlast : (rbsp ++ [0]).length - 1 - (i + 1) = rbsp.length - 1 - i := by
        rw [List.length_append, List.length_singleton]
        omega
      have hget : (rbsp ++ [0])[rbsp.length - 1 - i]? = rbsp[rbsp.length - 1 - i]? :=
        List.getElem?_append_left (by omega)
      simp only [Option.map_some, Option.bind_eq_bind, Option.bind_some, hlast, hget]

theorem stopBit_append_nonzero (rbsp : Bytes) {b : UInt8} (hb : b ≠ 0) :
    stopBit (rbsp ++ [b]) = some (rbsp.length * 8 + 7 - trailingZeros b) := by
  unfold stopBit
  rw [List.reverse_append, List.reverse_singleton, List.singleton_append, List.findIdx?_cons,
    if_pos (by simpa using hb)]
  simp

theorem stopBit_eq {rbsp : Bytes} {front : List Bool} {pad : Nat}
    (h : bitsOf rbsp = front ++ true :: List.replicate pad false) :
    stopBit rbsp = some front.length := by
  induction rbsp using List.reverseRecOn generalizing front pad with
  | nil =>
      have := congrArg List.length h
      simp at this
  | append_singleton rbsp b ih =>
      rw [bitsOf_append] at h
      have hone : bitsOf [b] = byteBits b := List.append_nil _
      by_cases hb : b = 0
      · subst hb
        rw [stopBit_append_zero]
        have hset : true ∈ bitsOf rbsp := by
          have hmem : true ∈ bitsOf rbsp ++ bitsOf [0] := by simp [h]
          rcases List.mem_append.mp hmem with hmem | hmem
          · exact hmem
          · exact absurd hmem (by decide)
        obtain ⟨front', pad', hfront'⟩ := exists_last_set hset
        have hzero : bitsOf [0] = List.replicate 8 false := rfl
        rw [hzero, hfront', List.append_assoc, List.cons_append, List.replicate_append_replicate] at h
        rw [ih hfront', last_set_unique h]
      · obtain ⟨htrailing, hbyte⟩ :=
          byteBits_trailingZeros b.toNat b.toNat_lt fun h => hb (UInt8.toNat_inj.mp h)
        rw [UInt8.ofNat_toNat] at htrailing hbyte
        rw [hone, byteBits, hbyte, ← List.append_assoc] at h
        rw [stopBit_append_nonzero _ hb, ← last_set_unique h, List.length_append, length_bitsOf,
          List.length_take, length_beBits]
        congr 1
        omega

end Stop

/-- An RBSP's bits, cut around its window: what stands before it, itself, the rest up to and
including the stop bit, and the zeros after that. -/
structure Parts (rbsp : Bytes) (h : Head) (front middle body : List Bool) (pad : Nat) : Prop where
  bits : bitsOf rbsp = front ++ middle ++ body ++ List.replicate pad false
  stops : ∃ syntaxBits, body = syntaxBits ++ [true]
  windowAt : h.windowAt = front.length
  afterWindow : h.afterWindow = front.length + middle.length
  format : format.Reads h.toFormat front
  window : window.Reads h.window middle
  depth : ∃ s, bitDepth ⟨body ++ List.replicate pad false, h.afterWindow⟩ = some (h.bitDepth, s)
  sizes : h.width + 1 < 2 ^ 32 ∧ h.height + 1 < 2 ^ 32

theorem parseHead_eq_some {rbsp : Bytes} {h : Head} {s : BitReader} :
    parseHead rbsp = some (h, s) ↔ ∃ f r w r' d, format ⟨bitsOf rbsp, 0⟩ = some (f, r) ∧
      window r = some (w, r') ∧ bitDepth r' = some (d, s) ∧
      h = { f with window := w, bitDepth := d, windowAt := r.pos, afterWindow := r'.pos } := by
  simp only [parseHead, Option.bind_eq_bind, Option.bind_eq_some_iff, Prod.exists, Option.pure_def,
    Option.some.injEq, Prod.mk.injEq]
  constructor
  · rintro ⟨f, r, hf, w, r', hw, d, s, hd, rfl, rfl⟩
    exact ⟨f, r, w, r', d, hf, hw, hd, rfl⟩
  · rintro ⟨f, r, w, r', d, hf, hw, hd, rfl⟩
    exact ⟨f, r, hf, w, r', hw, d, s, hd, rfl, rfl⟩

theorem true_mem_of_bitDepth {bits : List Bool} {pos d : Nat} {s : BitReader}
    (h : bitDepth ⟨bits, pos⟩ = some (d, s)) : true ∈ bits := by
  by_contra hnot
  have hzeros : ∀ b ∈ bits, b = false := by
    intro b hb
    cases b
    · rfl
    · exact absurd hb hnot
  obtain ⟨_, _, hue, -⟩ := Parse.bind_eq_some.mp h
  rw [Parse.ue_of_zeros hzeros] at hue
  cases hue

theorem exists_parts {rbsp : Bytes} {h : Head} {s : BitReader} (hparse : parseHead rbsp = some (h, s)) :
    ∃ front middle body pad, Parts rbsp h front middle body pad ∧
      ∃ code, body ++ List.replicate pad false = code ++ s.unread ∧
        s.pos = h.afterWindow + code.length ∧ bitDepth.Reads h.bitDepth code := by
  obtain ⟨f, r, w, r', d, hf, hw, hd, rfl⟩ := parseHead_eq_some.mp hparse
  obtain ⟨front, hfront, hat, hformat⟩ := format_exact _ _ _ hf
  obtain ⟨middle, hmiddle, hafter, hwindow⟩ := window_exact _ _ _ hw
  obtain ⟨code, hcode, hend, hdepth⟩ := bitDepth_exact _ _ _ hd
  obtain ⟨bits, pos'⟩ := r'
  obtain ⟨syntaxBits, pad, rfl⟩ := exists_last_set (true_mem_of_bitDepth hd)
  have hbody : syntaxBits ++ true :: List.replicate pad false =
      syntaxBits ++ [true] ++ List.replicate pad false := by simp
  simp only [Nat.zero_add] at hfront hat hmiddle hafter hend hcode
  refine ⟨front, middle, syntaxBits ++ [true], pad, ?_, code, by rw [← hbody, hcode], hend, hdepth⟩
  exact
    { bits := by simp only [hfront, hmiddle, hbody, List.append_assoc]
      stops := ⟨syntaxBits, rfl⟩
      windowAt := hat
      afterWindow := by rw [hafter, hat]
      format := hformat
      window := hwindow
      depth := ⟨s, by rw [← hbody]; exact hd⟩
      sizes := size_lt hf }

theorem parseHead_of_parts {rbsp : Bytes} {front middle body : List Bool} {pad : Nat} {f : Format}
    {w : Option Window}
    (hbits : bitsOf rbsp = front ++ middle ++ body ++ List.replicate pad false)
    (hformat : format.Reads f front) (hwindow : window.Reads w middle) :
    parseHead rbsp =
      (bitDepth ⟨body ++ List.replicate pad false, front.length + middle.length⟩).map fun out =>
        ({ f with
          window := w
          bitDepth := out.1
          windowAt := front.length
          afterWindow := front.length + middle.length }, out.2) := by
  have hfirst : format ⟨bitsOf rbsp, 0⟩ =
      some (f, ⟨middle ++ (body ++ List.replicate pad false), front.length⟩) := by
    rw [hbits, List.append_assoc, List.append_assoc, hformat, Nat.zero_add]
  have hsecond := hwindow (body ++ List.replicate pad false) front.length
  simp only [parseHead, hfirst, hsecond, Option.bind_eq_bind, Option.bind_some]
  cases bitDepth ⟨body ++ List.replicate pad false, front.length + middle.length⟩ <;> rfl

theorem Parts.stopBit {rbsp : Bytes} {h : Head} {front middle body : List Bool} {pad : Nat}
    (hparts : Parts rbsp h front middle body pad) :
    stopBit rbsp = some (front.length + middle.length + body.length - 1) ∧ 0 < body.length := by
  obtain ⟨syntaxBits, rfl⟩ := hparts.stops
  have hbits : bitsOf rbsp = (front ++ middle ++ syntaxBits) ++ true :: List.replicate pad false := by
    rw [hparts.bits]
    simp
  rw [stopBit_eq hbits]
  simp only [List.length_append, List.length_singleton]
  exact ⟨by congr 1, by omega⟩

/-- The window that cuts this much off the right and the bottom. -/
def windowOf (right bottom : Nat) : Option Window :=
  if right = 0 ∧ bottom = 0 then none else some ⟨0, right, 0, bottom⟩

def windowBits (right bottom : Nat) : List Bool :=
  if right = 0 ∧ bottom = 0 then [false]
  else true :: [0, right, 0, bottom].flatMap Parse.ueBits

theorem writeWindow_eq (out : BitWriter) (right bottom : Nat) :
    writeWindow out right bottom = (windowBits right bottom).foldl BitWriter.bit out := by
  unfold writeWindow windowBits
  split
  · rfl
  · simp [BitWriter.ue_eq]

theorem window_reads {right bottom : Nat} (hright : right + 1 < 2 ^ 32) (hbottom : bottom + 1 < 2 ^ 32) :
    window.Reads (windowOf right bottom) (windowBits right bottom) := by
  unfold windowOf windowBits
  split
  · exact (Parse.Reads.flag false).bind (Parse.Reads.ok none)
  · have hzero := Parse.ue_reads (v := 0) (by decide)
    exact (Parse.Reads.flag true).bind (hzero.bind ((Parse.ue_reads hright).bind (hzero.bind
      ((Parse.ue_reads hbottom).bind (Parse.Reads.ok _)))))

/-- Bits as bytes, the last one padded with zeros. -/
def pack (bits : List Bool) : Bytes := (bits.foldl BitWriter.bit .empty).bytes

theorem exists_pad (bits : List Bool) :
    ∃ pad, bitsOf (pack bits) = bits ++ List.replicate pad false := by
  obtain ⟨pad, -, hpad⟩ := (BitWriter.holds_empty.foldl_bit bits).padded
  exact ⟨pad, hpad⟩

def unitOf (sps : Bytes) (bits : List Bool) : Bytes := sps.take 2 ++ escape (pack bits)

section Header

variable {sps : Bytes} (hsps : Hevc.nalType sps = some Hevc.sps ∧ 2 ≤ sps.length) (bits : List Bool)

include hsps

theorem take_unitOf : (unitOf sps bits).take 2 = sps.take 2 :=
  List.take_left' (by rw [List.length_take]; omega)

theorem unescape_unitOf : unescape ((unitOf sps bits).drop 2) = pack bits := by
  have hdrop : (unitOf sps bits).drop 2 = escape (pack bits) :=
    List.drop_left' (by rw [List.length_take]; omega)
  rw [hdrop, unescape_escape]

theorem unitOf_sps :
    Hevc.nalType (unitOf sps bits) = some Hevc.sps ∧ 2 ≤ (unitOf sps bits).length := by
  obtain ⟨htype, hlen⟩ := hsps
  obtain ⟨a, b, rest, rfl⟩ : ∃ a b rest, sps = a :: b :: rest := by
    match sps, hlen with
    | a :: b :: rest, _ => exact ⟨a, b, rest, rfl⟩
  refine ⟨htype, ?_⟩
  simp [unitOf]

theorem head_unitOf : head (unitOf sps bits) = headOf (pack bits) := by
  rw [head, if_pos (unitOf_sps hsps bits), unescape_unitOf hsps]

end Header

theorem cropSps_of_parts {sps front middle body : List _} {h : Head} {pad : Nat}
    (hsps : Hevc.nalType sps = some Hevc.sps ∧ 2 ≤ sps.length)
    (hhead : headOf (unescape (sps.drop 2)) = some h)
    (hparts : Parts (unescape (sps.drop 2)) h front middle body pad) (shown : Nat × Nat) :
    cropSps sps shown =
      (offset h.width shown.1 h.units.1).bind fun right =>
        (offset h.height shown.2 h.units.2).bind fun bottom =>
          let nal := unitOf sps (front ++ windowBits right bottom ++ body)
          if (head nal).bind Head.shown = some shown then some nal else none := by
  obtain ⟨hstop, hpos⟩ := hparts.stopBit
  have hlen := congrArg List.length hparts.bits
  simp only [length_bitsOf, List.length_append, List.length_replicate] at hlen
  have hfront : ((bitsOf (unescape (sps.drop 2))).drop 0).take h.windowAt = front := by
    rw [hparts.bits, hparts.windowAt, List.drop_zero, List.append_assoc, List.append_assoc,
      List.take_left]
  have hcount : checkedSub (front.length + middle.length + body.length - 1 + 1) h.afterWindow =
      some body.length := by
    rw [checkedSub, hparts.afterWindow, if_pos (by omega)]
    congr 1
    omega
  have hbody : ((bitsOf (unescape (sps.drop 2))).drop h.afterWindow).take body.length = body := by
    rw [hparts.bits, hparts.afterWindow, ← List.length_append, List.append_assoc, List.drop_left,
      List.take_left]
  have hcopy (w : BitWriter) : w.copy (unescape (sps.drop 2)) h.afterWindow body.length =
      some (body.foldl BitWriter.bit w) := by
    rw [BitWriter.copy_eq (by rw [hparts.afterWindow]; omega), hbody]
  have hcopyFront : BitWriter.empty.copy (unescape (sps.drop 2)) 0 h.windowAt =
      some (front.foldl BitWriter.bit .empty) := by
    rw [BitWriter.copy_eq (by rw [hparts.windowAt]; omega), hfront]
  unfold cropSps
  simp only [hsps, and_self, guard_true, hhead, hstop, hcopyFront, hcount, hcopy, writeWindow_eq,
    Option.bind_eq_bind, Option.bind_some, Option.pure_def, ← List.foldl_append, unitOf, pack,
    List.append_assoc]

theorem offset_eq_some {coded shown unit n : Nat} :
    offset coded shown unit = some n ↔
      0 < shown ∧ shown ≤ coded ∧ unit ∣ coded - shown ∧ n = (coded - shown) / unit := by
  unfold offset checkedSub
  by_cases hle : shown ≤ coded
  · rw [if_pos hle]
    simp only [Option.bind_eq_bind, Option.bind_some, Option.ite_none_right_eq_some,
      Option.some.injEq, Nat.dvd_iff_mod_eq_zero]
    constructor
    · rintro ⟨⟨hdvd, hpos⟩, rfl⟩
      exact ⟨hpos, hle, hdvd, rfl⟩
    · rintro ⟨hpos, -, hdvd, rfl⟩
      exact ⟨⟨hdvd, hpos⟩, rfl⟩
  · rw [if_neg hle]
    exact iff_of_false nofun fun h => hle h.2.1

theorem cropSps_some {sps nal : Bytes} {shown : Nat × Nat} (h : cropSps sps shown = some nal) :
    (Hevc.nalType sps = some Hevc.sps ∧ 2 ≤ sps.length) ∧
      ∃ head s, parseHead (unescape (sps.drop 2)) = some (head, s) := by
  unfold cropSps at h
  simp only [Option.bind_eq_bind, Option.bind_eq_some_iff] at h
  obtain ⟨_, hguard, head, hhead, -⟩ := h
  obtain ⟨⟨_, s⟩, hparse, rfl⟩ := Option.map_eq_some_iff.mp hhead
  refine ⟨?_, _, s, hparse⟩
  by_contra hnot
  rw [guard, if_neg hnot] at hguard
  cases hguard

theorem bitDepth_agree {body : List Bool} {pad pad' pos pos' d d' : Nat} {s s' : BitReader}
    (h : bitDepth ⟨body ++ List.replicate pad false, pos⟩ = some (d, s))
    (h' : bitDepth ⟨body ++ List.replicate pad' false, pos'⟩ = some (d', s')) : d' = d := by
  have hstarts {n m : Nat} (hle : n ≤ m) :
      body ++ List.replicate n false <+: body ++ List.replicate m false := by
    refine (List.prefix_append_right_inj body).mpr ⟨List.replicate (m - n) false, ?_⟩
    rw [List.replicate_append_replicate, Nat.add_sub_cancel' hle]
  rcases Nat.le_total pad pad' with hle | hle
  · have := bitDepth_exact.of_prefix h (hstarts hle) pos'
    rw [h'] at this
    exact Option.some.inj this
  · have := bitDepth_exact.of_prefix h' (hstarts hle) pos
    rw [h] at this
    exact (Option.some.inj this).symm

section Rewritten

variable {sps : Bytes} {h : Head} {front middle body : List Bool} {pad : Nat}
  (hsps : Hevc.nalType sps = some Hevc.sps ∧ 2 ≤ sps.length)
  (hparts : Parts (unescape (sps.drop 2)) h front middle body pad)
  {shown : Nat × Nat} {right bottom : Nat} (hright : offset h.width shown.1 h.units.1 = some right)
  (hbottom : offset h.height shown.2 h.units.2 = some bottom)

include hparts hright hbottom

theorem windowBits_reads : window.Reads (windowOf right bottom) (windowBits right bottom) := by
  obtain ⟨hwidth, hheight⟩ := hparts.sizes
  refine window_reads ?_ ?_
  · obtain ⟨-, -, -, rfl⟩ := offset_eq_some.mp hright
    have := Nat.div_le_self (h.width - shown.1) h.units.1
    omega
  · obtain ⟨-, -, -, rfl⟩ := offset_eq_some.mp hbottom
    have := Nat.div_le_self (h.height - shown.2) h.units.2
    omega

theorem parts_rewritten {h' : Head}
    (hhead : headOf (pack (front ++ windowBits right bottom ++ body)) = some h') :
    h'.toFormat = h.toFormat ∧ h'.bitDepth = h.bitDepth ∧
      ∃ pad', Parts (pack (front ++ windowBits right bottom ++ body)) h' front
        (windowBits right bottom) body pad' := by
  obtain ⟨pad', hbits⟩ := exists_pad (front ++ windowBits right bottom ++ body)
  have hwindow := windowBits_reads hparts hright hbottom
  rw [headOf, parseHead_of_parts hbits hparts.format hwindow, Option.map_map,
    Option.map_eq_some_iff] at hhead
  obtain ⟨⟨d, s⟩, hdepth, rfl⟩ := hhead
  obtain ⟨s', horiginal⟩ := hparts.depth
  refine ⟨rfl, bitDepth_agree horiginal hdepth, pad', ?_⟩
  exact
    { bits := hbits
      stops := hparts.stops
      windowAt := rfl
      afterWindow := rfl
      format := hparts.format
      window := hwindow
      depth := ⟨s, hdepth⟩
      sizes := hparts.sizes }

end Rewritten

/-- A unit's RBSP up to and including its stop bit. -/
def upToStop (nal : Bytes) : List Bool :=
  let rbsp := unescape (nal.drop 2)
  (bitsOf rbsp).take ((stopBit rbsp).elim 0 (· + 1))

theorem Parts.upToStop {nal : Bytes} {h : Head} {front middle body : List Bool} {pad : Nat}
    (hparts : Parts (unescape (nal.drop 2)) h front middle body pad) :
    upToStop nal = front ++ middle ++ body := by
  obtain ⟨hstop, hpos⟩ := hparts.stopBit
  have hlen : front.length + middle.length + body.length - 1 + 1 =
      (front ++ middle ++ body).length := by
    rw [List.length_append, List.length_append]
    omega
  rw [Conformance.upToStop, hstop, Option.elim_some, hlen, hparts.bits, List.take_left]

/-- Another SPS is the same but for its window: the same header, the same bits before and after the
window, and the same picture read of them. -/
structure SameButWindow (sps nal : Bytes) (h h' : Head) : Prop where
  header : nal.take 2 = sps.take 2
  windowAt : h'.windowAt = h.windowAt
  before : (upToStop nal).take h'.windowAt = (upToStop sps).take h.windowAt
  after : (upToStop nal).drop h'.afterWindow = (upToStop sps).drop h.afterWindow
  format : h'.toFormat = h.toFormat
  bitDepth : h'.bitDepth = h.bitDepth

theorem Parts.sameButWindow {sps nal : Bytes} {h h' : Head} {front middle middle' body : List Bool}
    {pad pad' : Nat} (hparts : Parts (unescape (sps.drop 2)) h front middle body pad)
    (hparts' : Parts (unescape (nal.drop 2)) h' front middle' body pad')
    (hheader : nal.take 2 = sps.take 2) (hformat : h'.toFormat = h.toFormat)
    (hdepth : h'.bitDepth = h.bitDepth) : SameButWindow sps nal h h' where
  header := hheader
  windowAt := by rw [hparts.windowAt, hparts'.windowAt]
  before := by
    rw [hparts.upToStop, hparts'.upToStop, hparts.windowAt, hparts'.windowAt, List.append_assoc,
      List.append_assoc, List.take_left, List.take_left]
  after := by
    rw [hparts.upToStop, hparts'.upToStop, hparts.afterWindow, hparts'.afterWindow,
      ← List.length_append, ← List.length_append, List.drop_left, List.drop_left]
  format := hformat
  bitDepth := hdepth

theorem cropSps_changes_window {sps nal : Bytes} {shown : Nat × Nat}
    (hcrop : cropSps sps shown = some nal) :
    (∃ h h', head sps = some h ∧ head nal = some h' ∧ SameButWindow sps nal h h' ∧
      h'.shown = some shown) ∧
      ∀ size, cropSps nal size = cropSps sps size := by
  obtain ⟨hsps, h, s, hparse⟩ := cropSps_some hcrop
  have hhead : headOf (unescape (sps.drop 2)) = some h := congrArg (Option.map Prod.fst) hparse
  obtain ⟨front, middle, body, pad, hparts, -⟩ := exists_parts hparse
  rw [cropSps_of_parts hsps hhead hparts, Option.bind_eq_some_iff] at hcrop
  obtain ⟨right, hright, hcrop⟩ := hcrop
  obtain ⟨bottom, hbottom, hcrop⟩ := Option.bind_eq_some_iff.mp hcrop
  obtain ⟨hshown, hnal⟩ := Option.ite_none_right_eq_some.mp hcrop
  obtain rfl := Option.some.inj hnal
  obtain ⟨h', hhead', hshown⟩ := Option.bind_eq_some_iff.mp hshown
  have hpack := head_unitOf hsps (front ++ windowBits right bottom ++ body)
  obtain ⟨hformat, hdepth, pad', hparts'⟩ :=
    parts_rewritten hparts hright hbottom (hpack ▸ hhead')
  rw [← unescape_unitOf hsps] at hparts'
  refine ⟨⟨h, h', by rw [head, if_pos hsps, hhead], hhead', ?_, hshown⟩, fun size => ?_⟩
  · exact hparts.sameButWindow hparts' (take_unitOf hsps _) hformat hdepth
  · -- the same front, body and picture are rewritten again
    have hsps' := unitOf_sps hsps (front ++ windowBits right bottom ++ body)
    have hhead'' := hhead'
    rw [head, if_pos hsps'] at hhead''
    rw [cropSps_of_parts hsps' hhead'' hparts', cropSps_of_parts hsps hhead hparts]
    have hunits : h'.units = h.units := congrArg (fun f => Head.units { h' with toFormat := f }) hformat
    have hwidth : h'.width = h.width := congrArg Format.width hformat
    have hheight : h'.height = h.height := congrArg Format.height hformat
    have hagain (bits : List Bool) :
        unitOf (unitOf sps (front ++ windowBits right bottom ++ body)) bits = unitOf sps bits := by
      rw [unitOf, take_unitOf hsps]
      rfl
    simp only [hunits, hwidth, hheight, hagain]

/-- An SPS whose head reads, with its stop bit past that. -/
def WellFormed (sps : Bytes) : Prop :=
  (Hevc.nalType sps = some Hevc.sps ∧ 2 ≤ sps.length) ∧
    ∃ h s stop, parseHead (unescape (sps.drop 2)) = some (h, s) ∧
      stopBit (unescape (sps.drop 2)) = some stop ∧ s.pos ≤ stop

/-- A size that a window can show of a coded picture. -/
structure Croppable (h : Head) (shown : Nat × Nat) : Prop where
  width : 0 < shown.1 ∧ shown.1 ≤ h.width ∧ h.units.1 ∣ h.width - shown.1
  height : 0 < shown.2 ∧ shown.2 ≤ h.height ∧ h.units.2 ∣ h.height - shown.2

theorem windowOf_getD (right bottom : Nat) :
    (windowOf right bottom).getD ⟨0, 0, 0, 0⟩ = ⟨0, right, 0, bottom⟩ := by
  unfold windowOf
  split
  · rename_i hnone
    rw [hnone.1, hnone.2]
    rfl
  · rfl

theorem shown_of_window {h h' : Head} {shown : Nat × Nat} {right bottom : Nat}
    (hformat : h'.toFormat = h.toFormat) (hwindow : h'.window = windowOf right bottom)
    (hsizes : h.width + 1 < 2 ^ 32 ∧ h.height + 1 < 2 ^ 32)
    (hright : offset h.width shown.1 h.units.1 = some right)
    (hbottom : offset h.height shown.2 h.units.2 = some bottom) : h'.shown = some shown := by
  have hunits : h'.units = h.units := congrArg (fun f => Head.units { h' with toFormat := f }) hformat
  have hwidth : h'.width = h.width := congrArg Format.width hformat
  have hheight : h'.height = h.height := congrArg Format.height hformat
  obtain ⟨-, hlew, hdvdw, rfl⟩ := offset_eq_some.mp hright
  obtain ⟨-, hleh, hdvdh, rfl⟩ := offset_eq_some.mp hbottom
  have hacross := Nat.div_mul_cancel hdvdw
  have hdown := Nat.div_mul_cancel hdvdh
  have hw := Nat.div_le_self (h.width - shown.1) h.units.1
  have hh := Nat.div_le_self (h.height - shown.2) h.units.2
  have hchecked {n : Nat} (hn : n < 2 ^ 32) : checked n = some n := if_pos hn
  have hsub {a b : Nat} (hab : b ≤ a) : checkedSub a b = some (a - b) := if_pos hab
  simp only [Head.shown, hwindow, windowOf_getD, hunits, hwidth, hheight, Nat.zero_add,
    Option.bind_eq_bind, hchecked (show (h.width - shown.1) / h.units.1 < 2 ^ 32 by omega),
    hchecked (show (h.height - shown.2) / h.units.2 < 2 ^ 32 by omega), Option.bind_some, hacross,
    hdown, hchecked (show h.width - shown.1 < 2 ^ 32 by omega),
    hchecked (show h.height - shown.2 < 2 ^ 32 by omega),
    hsub (Nat.sub_le h.width shown.1), hsub (Nat.sub_le h.height shown.2), Nat.sub_sub_self hlew,
    Nat.sub_sub_self hleh, Option.pure_def]

theorem cropSps_isSome {sps : Bytes} (hsps : WellFormed sps) (shown : Nat × Nat) :
    (cropSps sps shown).isSome ↔ ∃ h, head sps = some h ∧ Croppable h shown := by
  obtain ⟨hsps, h, s, stop, hparse, hstop, hend⟩ := hsps
  have hhead : headOf (unescape (sps.drop 2)) = some h := congrArg (Option.map Prod.fst) hparse
  obtain ⟨front, middle, body, pad, hparts, code, hcode, hpos, hdepth⟩ := exists_parts hparse
  have hread : head sps = some h := by rw [head, if_pos hsps, hhead]
  rw [cropSps_of_parts hsps hhead hparts]
  constructor
  · intro hsome
    obtain ⟨nal, hcrop⟩ := Option.isSome_iff_exists.mp hsome
    obtain ⟨right, hright, hcrop⟩ := Option.bind_eq_some_iff.mp hcrop
    obtain ⟨bottom, hbottom, -⟩ := Option.bind_eq_some_iff.mp hcrop
    obtain ⟨hposw, hlew, hdvdw, -⟩ := offset_eq_some.mp hright
    obtain ⟨hposh, hleh, hdvdh, -⟩ := offset_eq_some.mp hbottom
    exact ⟨h, hread, ⟨hposw, hlew, hdvdw⟩, ⟨hposh, hleh, hdvdh⟩⟩
  · rintro ⟨h', hread', ⟨hposw, hlew, hdvdw⟩, ⟨hposh, hleh, hdvdh⟩⟩
    obtain rfl := Option.some.inj (hread.symm.trans hread')
    have hright := offset_eq_some.mpr ⟨hposw, hlew, hdvdw, rfl⟩
    have hbottom := offset_eq_some.mpr ⟨hposh, hleh, hdvdh, rfl⟩
    generalize (h.width - shown.1) / h.units.1 = right at hright
    generalize (h.height - shown.2) / h.units.2 = bottom at hbottom
    rw [hright, Option.bind_some, hbottom, Option.bind_some]
    obtain ⟨pad', hbits⟩ := exists_pad (front ++ windowBits right bottom ++ body)
    -- the bit depth ends before the stop bit, so it is read of the rewrite too
    obtain ⟨more, hmore⟩ : code <+: body := by
      obtain ⟨hstop', hbody⟩ := hparts.stopBit
      have hlast := Option.some.inj (hstop.symm.trans hstop')
      have hafter := hparts.afterWindow
      exact List.prefix_of_prefix_length_le ⟨s.unread, hcode.symm⟩ (List.prefix_append _ _)
        (by omega)
    have hdepth' := hdepth (more ++ List.replicate pad' false)
      (front.length + (windowBits right bottom).length)
    rw [← List.append_assoc, hmore] at hdepth'
    have hnew := parseHead_of_parts hbits hparts.format (windowBits_reads hparts hright hbottom)
    rw [hdepth', Option.map_some] at hnew
    obtain ⟨h', hhead', hformat, hwindow⟩ :
        ∃ h', headOf (pack (front ++ windowBits right bottom ++ body)) = some h' ∧
          h'.toFormat = h.toFormat ∧ h'.window = windowOf right bottom :=
      ⟨_, congrArg (Option.map Prod.fst) hnew, rfl, rfl⟩
    have hshown := shown_of_window hformat hwindow hparts.sizes hright hbottom
    simp only [head_unitOf hsps, hhead', Option.bind_some, hshown, if_true, Option.isSome_some]

/-- Units with where they stand in an access unit, the first from `pos` on. -/
def located (pos : Nat) : List Bytes → List (Nat × Bytes)
  | [] => []
  | nal :: rest => (pos + Nal.prefixBytes, nal) :: located (pos + Nal.prefixBytes + nal.length) rest

/-- Where each SPS among these units is to be replaced, length and all, and by what. -/
def spans (shown : Nat × Nat) : List (Nat × Bytes) → Except Nal.CodecError (List (Nat × Nat × Bytes))
  | [] => .ok []
  | (pos, nal) :: rest =>
      if Hevc.nalType nal ≠ some Hevc.sps then spans shown rest
      else
        match cropSps nal shown with
        | none => .error (.malformedNal pos)
        | some cropped => do
            let unit ← Nal.push [] cropped
            let later ← spans shown rest
            return (pos - Nal.prefixBytes, pos + nal.length, unit) :: later

def splice (span : Nat × Nat × Bytes) (data : Bytes) : Bytes :=
  data.take span.1 ++ span.2.2 ++ data.drop span.2.1

/-- Rewrite every SPS among the parameter sets that open an access unit, with its length: what
becomes of the access unit, and whether that went well. -/
def cropAccessUnit (data : Bytes) (shown : Nat × Nat) : Bytes × Except Nal.CodecError Unit :=
  let sets := (located 0 (Nal.units data)).takeWhile fun unit => Hevc.isParameterSet unit.2
  match spans shown sets with
  | .error e => (data, .error e)
  -- the last first, so that the places of those before it stay
  | .ok spans => (spans.foldr splice data, .ok ())

/-- What a parameter set becomes: an SPS is cropped to a unit that fits, any other stays. -/
def Rewrites (shown : Nat × Nat) (nal nal' : Bytes) : Prop :=
  if Hevc.nalType nal = some Hevc.sps then cropSps nal shown = some nal' ∧ Nal.Fits nal'
  else nal' = nal

theorem takeWhile_located (pos : Nat) (us : List Bytes) (p : Bytes → Bool) :
    (located pos us).takeWhile (fun unit => p unit.2) = located pos (us.takeWhile p) := by
  induction us generalizing pos with
  | nil => rfl
  | cons u us ih =>
      cases hp : p u with
      | true => simp only [located, List.takeWhile_cons, hp, if_true, ih]
      | false => simp only [located, List.takeWhile_cons, hp, if_neg Bool.false_ne_true]

theorem spans_ok {shown : Nat × Nat} {sets : List Bytes} {pos : Nat}
    {out : List (Nat × Nat × Bytes)} (h : spans shown (located pos sets) = .ok out) :
    ∃ sets', List.Forall₂ (Rewrites shown) sets sets' ∧ ∀ front tail : Bytes, front.length = pos →
      out.foldr splice (front ++ Nal.frames sets ++ tail) = front ++ Nal.frames sets' ++ tail := by
  induction sets generalizing pos out with
  | nil =>
      obtain rfl := Except.ok.inj h
      exact ⟨[], .nil, fun _ _ _ => rfl⟩
  | cons nal sets ih =>
      have hnext {front : Bytes} (hfront : front.length = pos) :
          (front ++ Nal.framed nal).length = pos + Nal.prefixBytes + nal.length := by
        rw [List.length_append, Nal.length_framed, hfront, Nat.add_assoc]
      have hcons (front tail : Bytes) (us : List Bytes) (u : Bytes) :
          front ++ Nal.frames (u :: us) ++ tail = front ++ Nal.framed u ++ Nal.frames us ++ tail := by
        rw [Nal.frames_cons, List.append_assoc front (Nal.framed u)]
      rw [located, spans] at h
      split at h
      · rename_i hother
        obtain ⟨sets', hsets, hout⟩ := ih h
        refine ⟨nal :: sets', .cons (by rw [Rewrites, if_neg hother]) hsets, ?_⟩
        intro front tail hfront
        rw [hcons, hcons, hout _ _ (hnext hfront)]
      · rename_i hsps
        cases hcrop : cropSps nal shown with
        | none => simp [hcrop] at h
        | some cropped =>
            simp only [hcrop] at h
            cases hpush : Nal.push [] cropped with
            | error e => simp [hpush, bind, Except.bind] at h
            | ok unit =>
                cases hlater : spans shown (located (pos + Nal.prefixBytes + nal.length) sets) with
                | error e => simp [hpush, hlater, bind, Except.bind] at h
                | ok later =>
                    simp only [hpush, hlater, bind, Except.bind, pure, Except.pure,
                      Except.ok.injEq] at h
                    subst h
                    obtain ⟨hfits, rfl⟩ := Nal.push_eq_ok.mp hpush
                    obtain ⟨sets', hsets, hout⟩ := ih hlater
                    have hrewrites : Rewrites shown nal cropped := by
                      rw [Rewrites, if_pos (not_not.mp hsps)]
                      exact ⟨hcrop, hfits⟩
                    refine ⟨cropped :: sets', .cons hrewrites hsets, ?_⟩
                    intro front tail hfront
                    have hstop : pos + Nal.prefixBytes + nal.length =
                        (front ++ Nal.framed nal).length := (hnext hfront).symm
                    rw [hcons, hcons, List.foldr_cons, hout _ _ (hnext hfront), splice]
                    simp only [Nat.add_sub_cancel, List.nil_append]
                    rw [hstop, ← hfront, List.append_assoc (front ++ Nal.framed nal),
                      List.drop_left, List.append_assoc front (Nal.framed nal), List.take_left,
                      List.append_assoc (front ++ Nal.framed cropped)]

theorem spans_error {shown : Nat × Nat} {sets : List Bytes} {pos : Nat} {e : Nal.CodecError}
    (h : spans shown (located pos sets) = .error e) :
    ∃ nal ∈ sets, ∀ nal', ¬ Rewrites shown nal nal' := by
  induction sets generalizing pos with
  | nil => exact absurd h nofun
  | cons nal sets ih =>
      have hrest (pos : Nat) (h : spans shown (located pos sets) = .error e) :
          ∃ u ∈ nal :: sets, ∀ u', ¬ Rewrites shown u u' := by
        obtain ⟨u, hu, hnone⟩ := ih h
        exact ⟨u, List.mem_cons_of_mem _ hu, hnone⟩
      rw [located, spans] at h
      split at h
      · exact hrest _ h
      · rename_i hsps
        have hhere (hnone : ∀ nal', cropSps nal shown = some nal' → ¬ Nal.Fits nal') :
            ∃ u ∈ nal :: sets, ∀ u', ¬ Rewrites shown u u' := by
          refine ⟨nal, List.mem_cons_self, fun nal' hrewrites => ?_⟩
          rw [Rewrites, if_pos (not_not.mp hsps)] at hrewrites
          exact hnone nal' hrewrites.1 hrewrites.2
        cases hcrop : cropSps nal shown with
        | none => exact hhere fun nal' h' => absurd (hcrop.symm.trans h') nofun
        | some cropped =>
            simp only [hcrop] at h
            cases hpush : Nal.push [] cropped with
            | error e' =>
                refine hhere fun nal' h' hfits => ?_
                obtain rfl := Option.some.inj (hcrop.symm.trans h')
                have hok : Nal.push [] cropped = .ok ([] ++ Nal.framed cropped) :=
                  Nal.push_eq_ok.mpr ⟨hfits, rfl⟩
                rw [hpush] at hok
                cases hok
            | ok unit =>
                cases hlater : spans shown (located (pos + Nal.prefixBytes + nal.length) sets) with
                | error e' =>
                    simp only [hpush, hlater, bind, Except.bind, Except.error.injEq] at h
                    exact hrest _ (h ▸ hlater)
                | ok later => simp [hpush, hlater, bind, Except.bind, pure, Except.pure] at h

/-- Every SPS among the parameter sets in front is rewritten and nothing else, or one of them cannot
be and nothing is. -/
theorem cropAccessUnit_rewrites (data : Bytes) (shown : Nat × Nat) :
    ∃ rest, Nal.Stops rest ∧ data = Nal.frames (Nal.units data) ++ rest ∧
      let sets := (Nal.units data).takeWhile Hevc.isParameterSet
      let picture := (Nal.units data).dropWhile Hevc.isParameterSet
      match cropAccessUnit data shown with
      | (data', .ok ()) => ∃ sets', List.Forall₂ (Rewrites shown) sets sets' ∧
          data' = Nal.frames (sets' ++ picture) ++ rest
      | (data', .error _) => data' = data ∧ ∃ nal ∈ sets, ∀ nal', ¬ Rewrites shown nal nal' := by
  obtain ⟨us, rest, hus, hrest, hdata⟩ := Nal.exists_frames data
  have hunits : Nal.units data = us := by rw [hdata, Nal.units_frames hus hrest]
  refine ⟨rest, hrest, by rw [hunits, hdata], ?_⟩
  have hsplit : data = Nal.frames (us.takeWhile Hevc.isParameterSet) ++
      (Nal.frames (us.dropWhile Hevc.isParameterSet) ++ rest) := by
    rw [← List.append_assoc, ← Nal.frames_append, List.takeWhile_append_dropWhile, hdata]
  simp only [cropAccessUnit, hunits, takeWhile_located]
  cases hspans : spans shown (located 0 (us.takeWhile Hevc.isParameterSet)) with
  | error e => exact ⟨rfl, spans_error hspans⟩
  | ok out =>
      obtain ⟨sets', hsets, hout⟩ := spans_ok hspans
      refine ⟨sets', hsets, ?_⟩
      have := hout [] (Nal.frames (us.dropWhile Hevc.isParameterSet) ++ rest) rfl
      rw [List.nil_append, List.nil_append, ← hsplit] at this
      rw [this, Nal.frames_append, List.append_assoc]

/-- Cropping an SPS changes its window only and shows what was asked, whatever it was cropped to
before; a well-formed one is cropped to every size that a window can show; and an access unit has
each SPS in front of it cropped, or is left as it was. -/
theorem crop_changes_window :
    (∀ sps nal shown, cropSps sps shown = some nal →
      (∃ h h', head sps = some h ∧ head nal = some h' ∧ SameButWindow sps nal h h' ∧
        h'.shown = some shown) ∧
        ∀ size, cropSps nal size = cropSps sps size) ∧
    (∀ sps shown, WellFormed sps →
      ((cropSps sps shown).isSome ↔ ∃ h, head sps = some h ∧ Croppable h shown)) ∧
    ∀ data shown, ∃ rest, Nal.Stops rest ∧ data = Nal.frames (Nal.units data) ++ rest ∧
      let sets := (Nal.units data).takeWhile Hevc.isParameterSet
      let picture := (Nal.units data).dropWhile Hevc.isParameterSet
      match cropAccessUnit data shown with
      | (data', .ok ()) => ∃ sets', List.Forall₂ (Rewrites shown) sets sets' ∧
          data' = Nal.frames (sets' ++ picture) ++ rest
      | (data', .error _) => data' = data ∧ ∃ nal ∈ sets, ∀ nal', ¬ Rewrites shown nal nal' :=
  ⟨fun _ _ _ => cropSps_changes_window, fun _ shown hsps => cropSps_isSome hsps shown,
    cropAccessUnit_rewrites⟩

def smallSps : Bytes := [0x42, 1, 1, 1, 1, 1, 1, 1, 1, 1, 1, 1, 1, 1, 1, 0xa0, 0x88, 0x45, 0x80]

theorem crop_changes_window_small :
    (∃ nal, cropSps smallSps (8, 10) = some nal ∧ ∃ h, head nal = some h ∧ h.shown = some (8, 10)) ∧
      ¬ (cropSps smallSps (7, 10)).isSome := by
  have hparse : parseHead (unescape (smallSps.drop 2)) =
      some (⟨⟨1, false, 16, 16⟩, none, 8, 126, 127⟩, ⟨byteBits 0x80, 128⟩) := by
    decide +kernel
  have hformed : WellFormed smallSps :=
    ⟨by decide, _, _, 128, hparse, by decide +kernel, by decide⟩
  have hhead : head smallSps = some ⟨⟨1, false, 16, 16⟩, none, 8, 126, 127⟩ := by decide +kernel
  have hcrop : (cropSps smallSps (8, 10)).isSome := by
    refine (crop_changes_window.2.1 smallSps (8, 10) hformed).mpr ⟨_, hhead, ?_, ?_⟩ <;> decide
  obtain ⟨nal, hnal⟩ := Option.isSome_iff_exists.mp hcrop
  obtain ⟨⟨_, h', -, hread, -, hshown⟩, -⟩ := crop_changes_window.1 _ _ _ hnal
  refine ⟨⟨nal, hnal, h', hread, hshown⟩, fun hodd => ?_⟩
  obtain ⟨h, hread, hcrop⟩ := (crop_changes_window.2.1 smallSps (7, 10) hformed).mp hodd
  obtain rfl := Option.some.inj (hhead.symm.trans hread)
  exact absurd hcrop.width (by decide)

end Conformance

end Slopty.Codec
