import Slopty.Lib.Machine

/-!
The media datagram on the wire: its fixed header, and the frame prefix that
rides inside the first fragment of a video frame.
-/

namespace Slopty.Media.Wire

open Slopty.Lib

def maxDatagram : Nat := 1200

def headerBytes : Nat := 17

/-- Payload bytes after the header, rounded down to even. -/
def maxPayload : Nat := (maxDatagram - headerBytes) / 2 * 2

def framePrefixBytes : Nat := 28

/-- `Channel::Media as u8`. -/
def channelMedia : UInt8 := 0

inductive Kind where
  | videoData
  | videoParity
  | audio
  | cursor
  | heartbeat
  | clock
  deriving DecidableEq, Repr

def Kind.toUInt8 : Kind → UInt8
  | .videoData => 0
  | .videoParity => 1
  | .audio => 2
  | .cursor => 3
  | .heartbeat => 4
  | .clock => 5

def Kind.fromUInt8 (v : UInt8) : Option Kind :=
  if v = 0 then some .videoData
  else if v = 1 then some .videoParity
  else if v = 2 then some .audio
  else if v = 3 then some .cursor
  else if v = 4 then some .heartbeat
  else if v = 5 then some .clock
  else none

@[simp] theorem Kind.fromUInt8_toUInt8 (k : Kind) : Kind.fromUInt8 k.toUInt8 = some k := by
  cases k <;> rfl

namespace Flags

def keyframe : UInt8 := 1
def ltr : UInt8 := 2
def ltrRefresh : UInt8 := 4
def retransmit : UInt8 := 8
def discardable : UInt8 := 16
def prevDiscardable : UInt8 := 32

end Flags

/-- Whether `flags & bit != 0`. -/
def hasFlag (flags bit : UInt8) : Bool := flags &&& bit != 0

structure MediaHeader where
  channel : UInt8
  stream : UInt32
  frame : UInt32
  index : UInt16
  dataCount : UInt16
  parityCount : UInt8
  kind : UInt8
  flags : UInt8
  sendMsLo : UInt8
  deriving DecidableEq, Repr

namespace MediaHeader

/-- The packed little-endian layout. -/
def asBytes (h : MediaHeader) : Bytes :=
  h.channel :: (leBytes 4 h.stream.toNat ++ leBytes 4 h.frame.toNat ++
    leBytes 2 h.index.toNat ++ leBytes 2 h.dataCount.toNat ++
    [h.parityCount, h.kind, h.flags, h.sendMsLo])

/-- Read the header off the front of a datagram; `none` when it is too short
or on another channel. -/
def parse : Bytes → Option (MediaHeader × Bytes)
  | c :: s0 :: s1 :: s2 :: s3 :: f0 :: f1 :: f2 :: f3 :: i0 :: i1 :: d0 :: d1 ::
      p :: k :: fl :: ms :: payload =>
      if c = channelMedia then
        some
          ({ channel := c
             stream := UInt32.ofNat (ofLe [s0, s1, s2, s3])
             frame := UInt32.ofNat (ofLe [f0, f1, f2, f3])
             index := UInt16.ofNat (ofLe [i0, i1])
             dataCount := UInt16.ofNat (ofLe [d0, d1])
             parityCount := p
             kind := k
             flags := fl
             sendMsLo := ms }, payload)
      else none
  | _ => none

def kind? (h : MediaHeader) : Option Kind := Kind.fromUInt8 h.kind

def isParity (h : MediaHeader) : Bool := h.kind = Kind.videoParity.toUInt8

@[simp] theorem asBytes_length (h : MediaHeader) : h.asBytes.length = headerBytes := by
  simp [asBytes, headerBytes]

end MediaHeader

theorem ofNat_ofLe_leBytes_four (n : UInt32) :
    UInt32.ofNat (ofLe (leBytes 4 n.toNat)) = n := by
  rw [ofLe_leBytes, Nat.mod_eq_of_lt (by simpa using n.toNat_lt)]
  exact UInt32.ofNat_toNat

theorem ofNat_ofLe_leBytes_two (n : UInt16) :
    UInt16.ofNat (ofLe (leBytes 2 n.toNat)) = n := by
  rw [ofLe_leBytes, Nat.mod_eq_of_lt (by simpa using n.toNat_lt)]
  exact UInt16.ofNat_toNat

theorem ofNat_ofLe_leBytes_eight (n : UInt64) :
    UInt64.ofNat (ofLe (leBytes 8 n.toNat)) = n := by
  rw [ofLe_leBytes, Nat.mod_eq_of_lt (by simpa using n.toNat_lt)]
  exact UInt64.ofNat_toNat

/-- A header written in front of a payload reads back, payload and all. -/
theorem MediaHeader.parse_asBytes_append (h : MediaHeader) (payload : Bytes)
    (hc : h.channel = channelMedia) :
    parse (h.asBytes ++ payload) = some (h, payload) := by
  obtain ⟨c, s, f, i, d, p, k, fl, ms⟩ := h
  subst hc
  have hs := ofNat_ofLe_leBytes_four s
  have hf := ofNat_ofLe_leBytes_four f
  have hi := ofNat_ofLe_leBytes_two i
  have hd := ofNat_ofLe_leBytes_two d
  simp only [leBytes] at hs hf hi hd
  simp only [asBytes, leBytes, List.cons_append, List.nil_append, parse, if_true]
  rw [hs, hf, hi, hd]

/-- A part of a stream's target, in the target's native pixels. -/
structure Region where
  x : UInt16
  y : UInt16
  w : UInt16
  h : UInt16
  deriving DecidableEq, Repr

structure FramePrefix where
  len : UInt32
  captureTsUs : UInt32
  ltrToken : UInt64
  stripes : UInt8
  build : UInt8
  reserved : UInt8 × UInt8
  region : UInt16 × UInt16 × UInt16 × UInt16
  deriving DecidableEq, Repr

namespace FramePrefix

def asBytes (p : FramePrefix) : Bytes :=
  leBytes 4 p.len.toNat ++ leBytes 4 p.captureTsUs.toNat ++ leBytes 8 p.ltrToken.toNat ++
    [p.stripes, p.build, p.reserved.1, p.reserved.2] ++
    leBytes 2 p.region.1.toNat ++ leBytes 2 p.region.2.1.toNat ++
    leBytes 2 p.region.2.2.1.toNat ++ leBytes 2 p.region.2.2.2.toNat

/-- Split a reassembled body into its prefix and the bytes after it. -/
def parse : Bytes → Option (FramePrefix × Bytes)
  | l0 :: l1 :: l2 :: l3 :: c0 :: c1 :: c2 :: c3 ::
      t0 :: t1 :: t2 :: t3 :: t4 :: t5 :: t6 :: t7 :: st :: bu :: r0 :: r1 ::
      x0 :: x1 :: y0 :: y1 :: w0 :: w1 :: h0 :: h1 :: rest =>
      some
        ({ len := UInt32.ofNat (ofLe [l0, l1, l2, l3])
           captureTsUs := UInt32.ofNat (ofLe [c0, c1, c2, c3])
           ltrToken := UInt64.ofNat (ofLe [t0, t1, t2, t3, t4, t5, t6, t7])
           stripes := st
           build := bu
           reserved := (r0, r1)
           region := (UInt16.ofNat (ofLe [x0, x1]), UInt16.ofNat (ofLe [y0, y1]),
             UInt16.ofNat (ofLe [w0, w1]), UInt16.ofNat (ofLe [h0, h1])) }, rest)
  | _ => none

/-- The prefix's form of a region: all zero for the whole target. -/
def regionOf : Option Region → UInt16 × UInt16 × UInt16 × UInt16
  | none => (0, 0, 0, 0)
  | some r => (r.x, r.y, r.w, r.h)

/-- The region a prefix names; `none` for the whole target or one of no size. -/
def region? (p : FramePrefix) : Option Region :=
  if 0 < p.region.2.2.1 ∧ 0 < p.region.2.2.2 then
    some ⟨p.region.1, p.region.2.1, p.region.2.2.1, p.region.2.2.2⟩
  else none

@[simp] theorem asBytes_length (p : FramePrefix) : p.asBytes.length = framePrefixBytes := by
  simp [asBytes, framePrefixBytes]

theorem parse_asBytes_append (p : FramePrefix) (rest : Bytes) :
    parse (p.asBytes ++ rest) = some (p, rest) := by
  obtain ⟨l, c, t, st, bu, ⟨r0, r1⟩, ⟨x, y, w, h⟩⟩ := p
  have hl := ofNat_ofLe_leBytes_four l
  have hc := ofNat_ofLe_leBytes_four c
  have ht := ofNat_ofLe_leBytes_eight t
  have hx := ofNat_ofLe_leBytes_two x
  have hy := ofNat_ofLe_leBytes_two y
  have hw := ofNat_ofLe_leBytes_two w
  have hh := ofNat_ofLe_leBytes_two h
  simp only [leBytes] at hl hc ht hx hy hw hh
  simp only [asBytes, leBytes, List.cons_append, List.nil_append, parse]
  rw [hl, hc, ht, hx, hy, hw, hh]

end FramePrefix

end Slopty.Media.Wire
