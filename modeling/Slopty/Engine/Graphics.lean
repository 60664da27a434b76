import Slopty.Lib.Chunks

/-!
A program's images made into what a client paints: the pixels as RGBA, sampled down by a whole
factor where there are too many of them for the wire.
-/

namespace Slopty.Engine.Graphics

open Slopty.Lib

/-- Largest RGBA payload shipped in one event. -/
def imageWireBytes : Nat := 12 * 1024 * 1024

/-- The formats that images are kept in; `other` is one that this code does not know. -/
inductive ImageFormat where
  | rgba
  | png
  | rgb
  | grayAlpha
  | gray
  | other
  deriving DecidableEq, Repr

/-- An image's pixels for the wire, row after row. -/
structure ImageUpload where
  id : UInt32
  generation : UInt64
  width : Nat
  height : Nat
  rgba : Bytes
  deriving DecidableEq, Repr

def ImageFormat.channels : ImageFormat → Option Nat
  | .rgba | .png => some 4
  | .rgb => some 3
  | .grayAlpha => some 2
  | .gray => some 1
  | .other => none

def pixelRgba : Bytes → Bytes
  | [g] => [g, g, g, 255]
  | [g, a] => [g, g, g, a]
  | [r, g, b] => [r, g, b, 255]
  | samples => samples

/-- The pixels as RGBA, whatever was stored. `none` when there are not enough of them; a number
of bytes past the address space is past the data too. -/
def toRgba (format : ImageFormat) (width height : UInt32) (data : Bytes) : Option Bytes :=
  let pixels := width.toNat * height.toNat
  match format.channels with
  | none => none
  | some channels =>
      if data.length < pixels * channels then none
      else
        let data := data.take (pixels * channels)
        some (match channels with
          | 4 => data
          | 3 => (chunksExact 3 data).flatMap pixelRgba
          | 2 => (chunksExact 2 data).flatMap pixelRgba
          | _ => data.flatMap fun g => pixelRgba [g])

/-- The most an image is sampled down by. -/
def maxShrink : Nat := 64

/-- The whole factor that brings `bytes` of RGBA under the wire cap. -/
def shrinkFactor (bytes : Nat) : Nat :=
  ((List.range' 1 maxShrink).find? fun f => decide (bytes / f ^ 2 ≤ imageWireBytes)).getD maxShrink

/-- Every `f`th pixel of each `f`th row, `w` by `h` of them. -/
def sampleDown (rgba : Bytes) (srcWidth w h f : Nat) : Bytes :=
  let stride := max (srcWidth * 4) 4
  let f := max f 1
  ((stepBy f (chunksExact stride rgba)).take h).flatMap fun row =>
    ((stepBy f (chunksExact 4 row)).take w).flatten

/-- The wire image for pixels kept in `format`, with the shrink factor applied. -/
def upload (id : UInt32) (generation : UInt64) (format : ImageFormat) (width height : UInt32)
    (data : Bytes) : Option (ImageUpload × Nat) :=
  match toRgba format width height data with
  | none => none
  | some rgba =>
      let shrink := shrinkFactor rgba.length
      if 1 < shrink then
        let w := max (divCeil width.toNat shrink) 1
        let h := max (divCeil height.toNat shrink) 1
        some (⟨id, generation, w, h, sampleDown rgba width.toNat w h shrink⟩, shrink)
      else some (⟨id, generation, width.toNat, height.toNat, rgba⟩, shrink)

/-- Pixels `i` and below of `buf` widened. The walk ends where the samples of a pixel are not
all there. -/
def widenWith (n : Nat) (pixel : Bytes → Bytes) : Nat → Bytes → Bytes
  | 0, buf => buf
  | i + 1, buf =>
      let start := i * n
      if buf.length < start + n then buf
      else
        let samples := (buf.drop start).take n
        let dest := i * 4
        widenWith n pixel i
          (if dest + 4 ≤ buf.length then
            buf.take dest ++ pixel samples ++ buf.drop (dest + 4)
          else buf)

/-- Widen pixels of `n` samples packed at the front of `buf` to the four samples each that fill
it, in place and back to front. -/
def widen (n : Nat) (pixel : Bytes → Bytes) (buf : Bytes) : Bytes :=
  widenWith n pixel (buf.length / 4) buf

/-- What a decoded picture's samples are; `indexed` is what the decoder's expansion leaves none
of. -/
inductive ColorType where
  | grayscale
  | rgb
  | indexed
  | grayscaleAlpha
  | rgba
  deriving DecidableEq, Repr

def ColorType.format : ColorType → ImageFormat
  | .grayscale => .gray
  | .rgb => .rgb
  | .indexed => .other
  | .grayscaleAlpha => .grayAlpha
  | .rgba => .rgba

/-- A picture decoded into `rgba`, the buffer that is kept: its samples fill the front. -/
def decodePng (color : ColorType) (rgba : Bytes) : Option Bytes :=
  match color with
  | .rgba => some rgba
  | .rgb => some (widen 3 pixelRgba rgba)
  | .grayscaleAlpha => some (widen 2 pixelRgba rgba)
  | .grayscale => some (widen 1 pixelRgba rgba)
  | .indexed => none

/-- Pixel (`x`, `y`) of an image `width` wide, as its samples. -/
def pixelAt (channels width : Nat) (data : Bytes) (x y : Nat) : Bytes :=
  (data.drop (channels * (y * width + x))).take channels

/-- A factor of at most `maxShrink` brings the sizes, each rounded up, under the wire cap, and
every smaller one leaves the bytes divided by its square above the cap. -/
def FactorFits (width height : Nat) : Prop :=
  ∃ f, 1 ≤ f ∧ f ≤ maxShrink ∧ divCeil width f * divCeil height f * 4 ≤ imageWireBytes ∧
    ∀ g, 1 ≤ g → g < f → imageWireBytes < width * height * 4 / g ^ 2

theorem length_pixelRgba {samples : Bytes} (hsome : 0 < samples.length)
    (hfour : samples.length ≤ 4) : (pixelRgba samples).length = 4 := by
  match samples with
  | [] => exact absurd hsome (lt_irrefl 0)
  | [_] | [_, _] | [_, _, _] | [_, _, _, _] => rfl
  | _ :: _ :: _ :: _ :: _ :: rest =>
      simp only [List.length_cons] at hfour
      omega

theorem pixelRgba_of_length {samples : Bytes} (h : samples.length = 4) :
    pixelRgba samples = samples := by
  match samples with
  | [_, _, _, _] => rfl

theorem channels_bounds {format : ImageFormat} {channels : Nat}
    (h : format.channels = some channels) : 0 < channels ∧ channels ≤ 4 := by
  cases format <;> simp only [ImageFormat.channels, Option.some.injEq, reduceCtorEq] at h <;> omega

theorem flatMap_pixelRgba {n pixels : Nat} (hn : 0 < n) (hfour : n ≤ 4) {data : Bytes}
    (hdata : data.length = pixels * n) :
    ((chunksExact n data).flatMap pixelRgba).length = pixels * 4 ∧
      ∀ i < pixels, (((chunksExact n data).flatMap pixelRgba).drop (4 * i)).take 4 =
        pixelRgba ((data.drop (n * i)).take n) := by
  have hcount : data.length / n = pixels := by rw [hdata, Nat.mul_div_cancel pixels hn]
  have hpieces : ∀ piece ∈ chunksExact n data, (pixelRgba piece).length = 4 := by
    intro piece hpiece
    have := length_of_mem_chunksExact hpiece
    exact length_pixelRgba (by omega) (by omega)
  constructor
  · rw [length_flatMap_const hpieces, length_chunksExact, hcount, Nat.mul_comm]
  · intro i hi
    exact take_drop_flatMap hpieces (getElem?_chunksExact (by rwa [hcount]))

theorem flatMap_gray {data : Bytes} :
    data.flatMap (fun g => pixelRgba [g]) = (chunksExact 1 data).flatMap pixelRgba := by
  have hpieces : chunksExact 1 data = data.map fun g => [g] := by
    refine List.ext_getElem? fun i => ?_
    by_cases hi : i < data.length
    · rw [getElem?_chunksExact (by rwa [Nat.div_one]), Nat.one_mul, List.getElem?_map,
        List.getElem?_eq_getElem hi, List.drop_eq_getElem_cons hi]
      rfl
    · rw [List.getElem?_eq_none (by rw [length_chunksExact, Nat.div_one]; omega),
        List.getElem?_eq_none (by rw [List.length_map]; omega)]
  rw [hpieces, List.flatMap_map]

/-- What complete data is as RGBA: four bytes a pixel, each pixel its samples widened. -/
theorem toRgba_eq {format : ImageFormat} {channels : Nat} (hformat : format.channels = some channels)
    {width height : UInt32} {data : Bytes}
    (hdata : width.toNat * height.toNat * channels ≤ data.length) :
    ∃ rgba, toRgba format width height data = some rgba ∧
      rgba.length = width.toNat * height.toNat * 4 ∧
      ∀ i < width.toNat * height.toNat,
        (rgba.drop (4 * i)).take 4 = pixelRgba ((data.drop (channels * i)).take channels) := by
  obtain ⟨hpos, hfour⟩ := channels_bounds hformat
  generalize hpixels : width.toNat * height.toNat = pixels at hdata ⊢
  have hlen : (data.take (pixels * channels)).length = pixels * channels := by
    rw [List.length_take, min_eq_left hdata]
  have htaken : ∀ i < pixels, ((data.take (pixels * channels)).drop (channels * i)).take channels =
      (data.drop (channels * i)).take channels := by
    intro i hi
    have hend : channels * (i + 1) ≤ channels * pixels := Nat.mul_le_mul_left channels hi
    rw [Nat.mul_succ, Nat.mul_comm channels pixels] at hend
    rw [List.drop_take, List.take_take, min_eq_left (by omega)]
  obtain ⟨hwide, hpixel⟩ := flatMap_pixelRgba hpos hfour hlen
  rw [toRgba, hpixels, hformat]
  simp only
  rw [if_neg (not_lt.mpr hdata)]
  refine ⟨_, rfl, ?_⟩
  have hcase : channels = 4 ∨ channels = 3 ∨ channels = 2 ∨ channels = 1 := by omega
  rcases hcase with rfl | rfl | rfl | rfl
  · refine ⟨hlen, fun i hi => ?_⟩
    rw [pixelRgba_of_length]
    · exact htaken i hi
    · rw [List.length_take, List.length_drop]
      omega
  · exact ⟨hwide, fun i hi => (hpixel i hi).trans (congrArg pixelRgba (htaken i hi))⟩
  · exact ⟨hwide, fun i hi => (hpixel i hi).trans (congrArg pixelRgba (htaken i hi))⟩
  · rw [flatMap_gray]
    exact ⟨hwide, fun i hi => (hpixel i hi).trans (congrArg pixelRgba (htaken i hi))⟩

theorem shrinkFactor_spec (bytes : Nat) :
    1 ≤ shrinkFactor bytes ∧ shrinkFactor bytes ≤ maxShrink ∧
      (∀ g, 1 ≤ g → g < shrinkFactor bytes → imageWireBytes < bytes / g ^ 2) ∧
      (bytes / shrinkFactor bytes ^ 2 ≤ imageWireBytes ∨ shrinkFactor bytes = maxShrink) := by
  unfold shrinkFactor
  cases hfind : (List.range' 1 maxShrink).find? fun f => decide (bytes / f ^ 2 ≤ imageWireBytes) with
  | none =>
      rw [List.find?_range'_eq_none] at hfind
      refine ⟨by decide, le_refl _, fun g hg hlt => ?_, Or.inr rfl⟩
      have := hfind g hg (by rw [Option.getD_none] at hlt; omega)
      simpa using this
  | some f =>
      rw [List.find?_range'_eq_some] at hfind
      obtain ⟨hf, hmem, hleast⟩ := hfind
      rw [List.mem_range'_1] at hmem
      refine ⟨hmem.1, by rw [Option.getD_some]; omega, fun g hg hlt => ?_, Or.inl ?_⟩
      · have := hleast g hg hlt
        simpa using this
      · simpa using hf

/-- Widening in place reads every sample before it is written over. -/
theorem widenWith_eq {n : Nat} (hn : 0 < n) (hfour : n ≤ 4) (pixel : Bytes → Bytes) (i : Nat)
    {buf : Bytes} (hbuf : i * 4 ≤ buf.length) :
    widenWith n pixel i buf =
      (chunksExact n (buf.take (n * i))).flatMap pixel ++ buf.drop (i * 4) := by
  induction i generalizing buf with
  | zero => simp [widenWith, chunksExact]
  | succ i ih =>
      have hpacked : n * (i + 1) ≤ (i + 1) * 4 := by
        rw [Nat.mul_comm]
        exact Nat.mul_le_mul_left _ hfour
      have hbefore : n * i ≤ i * 4 := by
        rw [Nat.mul_comm]
        exact Nat.mul_le_mul_left _ hfour
      rw [Nat.mul_succ] at hpacked
      have hfront : (buf.take (i * 4)).length = i * 4 := by
        rw [List.length_take]
        omega
      rw [widenWith, if_neg (by rw [Nat.mul_comm i n]; omega)]
      simp only
      rw [if_pos (by omega), ih (by rw [List.append_assoc, List.length_append, hfront]; omega)]
      have hkept : (buf.take (i * 4) ++ pixel ((buf.drop (i * n)).take n) ++
          buf.drop (i * 4 + 4)).take (n * i) = buf.take (n * i) := by
        rw [List.append_assoc, List.take_append_of_le_length (by omega), List.take_take,
          min_eq_left hbefore]
      have hrest : (buf.take (i * 4) ++ pixel ((buf.drop (i * n)).take n) ++
          buf.drop (i * 4 + 4)).drop (i * 4) =
            pixel ((buf.drop (i * n)).take n) ++ buf.drop (i * 4 + 4) := by
        rw [List.append_assoc, List.drop_left' hfront]
      rw [hkept, hrest, chunksExact_take_succ hn (by rw [Nat.mul_succ]; omega), List.flatMap_append,
        List.flatMap_singleton, Nat.mul_comm i n, Nat.succ_mul, List.append_assoc]

theorem widen_eq {n pixels : Nat} (hn : 0 < n) (hfour : n ≤ 4) (pixel : Bytes → Bytes)
    {buf : Bytes} (hbuf : buf.length = pixels * 4) :
    widen n pixel buf = (chunksExact n (buf.take (pixels * n))).flatMap pixel := by
  have hcount : buf.length / 4 = pixels := by rw [hbuf, Nat.mul_div_cancel _ (by decide)]
  rw [widen, hcount, widenWith_eq hn hfour pixel pixels (le_of_eq hbuf.symm), ← hbuf,
    List.drop_length, List.append_nil, Nat.mul_comm n]

theorem decodePng_eq_toRgba {color : ColorType} {channels : Nat}
    (hcolor : color.format.channels = some channels) {width height : UInt32} {buf : Bytes}
    (hbuf : buf.length = width.toNat * height.toNat * 4) :
    decodePng color buf = toRgba color.format width height
      (buf.take (width.toNat * height.toNat * channels)) := by
  obtain ⟨hpos, hfour⟩ := channels_bounds hcolor
  have hwide := widen_eq hpos hfour pixelRgba hbuf
  have henough : ¬ (buf.take (width.toNat * height.toNat * channels)).length <
      width.toNat * height.toNat * channels := by
    have := Nat.mul_le_mul_left (width.toNat * height.toNat) hfour
    rw [List.length_take]
    omega
  cases color <;> simp only [ColorType.format, ImageFormat.channels, Option.some.injEq,
    reduceCtorEq] at hcolor
  all_goals subst hcolor
  all_goals simp only [toRgba, ColorType.format, ImageFormat.channels, decodePng, if_neg henough,
    List.take_take, min_self, flatMap_gray, hwide]
  rw [← hbuf, List.take_length]

theorem sampleRow {row : Bytes} {width f : Nat} (hf : 0 < f) (hrow : row.length = width * 4) :
    (((stepBy f (chunksExact 4 row)).take (divCeil width f)).flatten).length =
        4 * divCeil width f ∧
      ∀ x < divCeil width f,
        (((((stepBy f (chunksExact 4 row)).take (divCeil width f)).flatten).drop (4 * x)).take 4) =
          (row.drop (4 * (x * f))).take 4 := by
  have hcount : (chunksExact 4 row).length = width := by
    rw [length_chunksExact, hrow, Nat.mul_div_cancel _ (by decide)]
  have hall : (stepBy f (chunksExact 4 row)).take (divCeil width f) =
      stepBy f (chunksExact 4 row) :=
    List.take_of_length_le (by rw [length_stepBy hf, hcount])
  have hpieces : ∀ piece ∈ stepBy f (chunksExact 4 row), piece.length = 4 := by
    intro piece hpiece
    obtain ⟨i, hi⟩ := List.mem_iff_getElem?.mp hpiece
    rw [getElem?_stepBy hf] at hi
    exact length_of_mem_chunksExact (List.mem_of_getElem? hi)
  rw [hall, List.flatten_eq_flatMap]
  constructor
  · rw [length_flatMap_const (g := id) hpieces, length_stepBy hf, hcount]
  · intro x hx
    refine take_drop_flatMap (g := id) hpieces ?_
    rw [getElem?_stepBy hf]
    refine getElem?_chunksExact ?_
    rw [hrow, Nat.mul_div_cancel _ (by decide)]
    exact (lt_divCeil_iff hf).mp hx

theorem sampleDown_eq {rgba : Bytes} {width height f : Nat} (hf : 0 < f) (hwidth : 0 < width)
    (hrgba : rgba.length = width * height * 4) :
    (sampleDown rgba width (divCeil width f) (divCeil height f) f).length =
        divCeil width f * divCeil height f * 4 ∧
      ∀ x < divCeil width f, ∀ y < divCeil height f,
        pixelAt 4 (divCeil width f) (sampleDown rgba width (divCeil width f) (divCeil height f) f)
          x y = pixelAt 4 width rgba (x * f) (y * f) := by
  have hstride : max (width * 4) 4 = width * 4 := max_eq_left (by omega)
  have hrows : rgba.length / (width * 4) = height := by
    rw [hrgba, Nat.mul_right_comm, Nat.mul_div_cancel_left _ (by omega)]
  have hall : (stepBy f (chunksExact (width * 4) rgba)).take (divCeil height f) =
      stepBy f (chunksExact (width * 4) rgba) :=
    List.take_of_length_le (by rw [length_stepBy hf, length_chunksExact, hrows])
  have hlength : ∀ row ∈ stepBy f (chunksExact (width * 4) rgba), row.length = width * 4 := by
    intro row hrow
    obtain ⟨i, hi⟩ := List.mem_iff_getElem?.mp hrow
    rw [getElem?_stepBy hf] at hi
    exact length_of_mem_chunksExact (List.mem_of_getElem? hi)
  have hpieces := fun row hrow => (sampleRow hf (hlength row hrow)).1
  rw [sampleDown, hstride, max_eq_left hf, hall]
  constructor
  · rw [length_flatMap_const hpieces, length_stepBy hf, length_chunksExact, hrows]
    ring
  · intro x hx y hy
    have hrow : (stepBy f (chunksExact (width * 4) rgba))[y]? =
        some ((rgba.drop (width * 4 * (y * f))).take (width * 4)) := by
      rw [getElem?_stepBy hf]
      exact getElem?_chunksExact (by rw [hrows]; exact (lt_divCeil_iff hf).mp hy)
    have hsource := (lt_divCeil_iff hf).mp hx
    have hsplit : ∀ w y x, 4 * (y * w + x) = 4 * w * y + 4 * x := by
      intro w y x
      ring
    -- the pixel is looked for in its own row, which is put together before it is cut
    have hin : ∀ (bytes : Bytes) (start len x : Nat), 4 * x + 4 ≤ len →
        (bytes.drop (start + 4 * x)).take 4 = (((bytes.drop start).take len).drop (4 * x)).take 4 := by
      intro bytes start len x hle
      rw [List.drop_take, List.take_take, List.drop_drop, min_eq_left (by omega)]
    rw [pixelAt, pixelAt, hsplit, hsplit, hin _ _ (4 * divCeil width f) x (by omega),
      take_drop_flatMap hpieces hrow,
      (sampleRow hf (hlength _ (List.mem_of_getElem? hrow))).2 x hx,
      hin rgba _ (width * 4) (x * f) (by omega), Nat.mul_comm 4 width]

theorem divCeil_one (n : Nat) : divCeil n 1 = n := by
  rw [divCeil, Nat.add_sub_cancel, Nat.div_one]

/-- Complete data is sent as every so manieth pixel of every so manieth row of the image. -/
theorem upload_eq (id : UInt32) (generation : UInt64) {format : ImageFormat} {channels : Nat}
    (hformat : format.channels = some channels) {width height : UInt32} {data : Bytes}
    (hdata : width.toNat * height.toNat * channels ≤ data.length) :
    ∃ image shrink, upload id generation format width height data = some (image, shrink) ∧
      shrink = shrinkFactor (width.toNat * height.toNat * 4) ∧
      image.width = divCeil width.toNat shrink ∧ image.height = divCeil height.toNat shrink ∧
      image.rgba.length = image.width * image.height * 4 ∧
      ∀ x < image.width, ∀ y < image.height,
        x * shrink < width.toNat ∧ y * shrink < height.toNat ∧
          pixelAt 4 image.width image.rgba x y =
            pixelRgba (pixelAt channels width.toNat data (x * shrink) (y * shrink)) := by
  obtain ⟨rgba, hrgba, hlen, hpixel⟩ := toRgba_eq hformat hdata
  obtain ⟨hone, hmost, hsmaller, -⟩ := shrinkFactor_spec (width.toNat * height.toNat * 4)
  generalize hshrink : shrinkFactor (width.toNat * height.toNat * 4) = f at hone hmost hsmaller
  have hsource : ∀ x y, x < width.toNat → y < height.toNat →
      pixelAt 4 width.toNat rgba x y = pixelRgba (pixelAt channels width.toNat data x y) := by
    intro x y hx hy
    have hrow : (y + 1) * width.toNat ≤ height.toNat * width.toNat := Nat.mul_le_mul_right _ hy
    rw [Nat.succ_mul, Nat.mul_comm height.toNat] at hrow
    exact hpixel _ (by omega)
  rw [upload, hrgba]
  simp only [hlen, hshrink]
  split
  · rename_i hlt
    -- an image with no pixels is under the cap as it is
    have hpos : 0 < width.toNat * height.toNat := by
      have hover := hsmaller 1 (le_refl 1) hlt
      by_contra hzero
      have hzero : width.toNat * height.toNat = 0 := by omega
      rw [hzero] at hover
      exact absurd hover (by decide)
    have hwidth : 0 < width.toNat := Nat.pos_of_mul_pos_right hpos
    have hheight : 0 < height.toNat := Nat.pos_of_mul_pos_left hpos
    have hw : 1 ≤ divCeil width.toNat f := (lt_divCeil_iff hone).mpr (by rwa [Nat.zero_mul])
    have hh : 1 ≤ divCeil height.toNat f := (lt_divCeil_iff hone).mpr (by rwa [Nat.zero_mul])
    obtain ⟨hbytes, hpixels⟩ := sampleDown_eq hone hwidth hlen
    refine ⟨_, f, rfl, rfl, max_eq_left hw, max_eq_left hh, ?_, ?_⟩
    · simp only [max_eq_left hw, max_eq_left hh]
      exact hbytes
    · simp only [max_eq_left hw, max_eq_left hh]
      intro x hx y hy
      have hx' := (lt_divCeil_iff hone).mp hx
      have hy' := (lt_divCeil_iff hone).mp hy
      exact ⟨hx', hy', (hpixels x hx y hy).trans (hsource _ _ hx' hy')⟩
  · rename_i hle
    obtain rfl : f = 1 := by omega
    refine ⟨_, 1, rfl, rfl, (divCeil_one _).symm, (divCeil_one _).symm, hlen, ?_⟩
    intro x hx y hy
    rw [Nat.mul_one, Nat.mul_one]
    exact ⟨hx, hy, hsource x y hx hy⟩

theorem factorFits_iff (width height : Nat) :
    FactorFits width height ↔
      divCeil width (shrinkFactor (width * height * 4)) *
        divCeil height (shrinkFactor (width * height * 4)) * 4 ≤ imageWireBytes := by
  obtain ⟨hone, hmost, hsmaller, hunder⟩ := shrinkFactor_spec (width * height * 4)
  generalize shrinkFactor (width * height * 4) = s at hone hmost hsmaller hunder ⊢
  constructor
  · rintro ⟨f, hf, hfmost, hfits, hleast⟩
    -- sizes rounded up under the cap bring the bytes under it too
    have hbytes : width * height * 4 / f ^ 2 ≤ imageWireBytes := by
      refine Nat.div_le_of_le_mul ?_
      calc width * height * 4
          ≤ (divCeil width f * f) * (divCeil height f * f) * 4 := Nat.mul_le_mul_right 4
            (Nat.mul_le_mul (le_divCeil_mul hf) (le_divCeil_mul hf))
        _ = f ^ 2 * (divCeil width f * divCeil height f * 4) := by ring
        _ ≤ f ^ 2 * imageWireBytes := Nat.mul_le_mul_left _ hfits
    have hsame : s = f := by
      rcases lt_trichotomy s f with hlt | heq | hgt
      · have hover := hleast s hone hlt
        have hsmost := hunder.resolve_left (not_le.mpr hover)
        omega
      · exact heq
      · exact absurd hbytes (not_le.mpr (hsmaller f hf hgt))
    rw [hsame]
    exact hfits
  · intro hfits
    exact ⟨s, hone, hmost, hfits, hsmaller⟩

theorem factorFits_of_le {width height : Nat} (h : width * height * 4 ≤ imageWireBytes) :
    FactorFits width height := by
  refine ⟨1, le_refl 1, by decide, ?_, fun g hg hlt => absurd hg (not_le.mpr hlt)⟩
  rwa [divCeil_one, divCeil_one]

/-- Complete data is always sent, as the pixels it is sampled at and as many bytes as its sizes
say; it is under the wire cap exactly when the factor brings the sizes rounded up under it. -/
theorem upload_fits_iff (id : UInt32) (generation : UInt64) (format : ImageFormat) (channels : Nat)
    (hformat : format.channels = some channels) (width height : UInt32) (data : Bytes)
    (hdata : width.toNat * height.toNat * channels ≤ data.length) :
    ∃ image shrink, upload id generation format width height data = some (image, shrink) ∧
      image.rgba.length = image.width * image.height * 4 ∧
      (∀ x < image.width, ∀ y < image.height,
        x * shrink < width.toNat ∧ y * shrink < height.toNat ∧
          pixelAt 4 image.width image.rgba x y =
            pixelRgba (pixelAt channels width.toNat data (x * shrink) (y * shrink))) ∧
      (image.rgba.length ≤ imageWireBytes ↔ FactorFits width.toNat height.toNat) := by
  obtain ⟨image, shrink, hsent, hshrink, hwidth, hheight, hlen, hpixels⟩ :=
    upload_eq id generation hformat hdata
  refine ⟨image, shrink, hsent, hlen, hpixels, ?_⟩
  rw [factorFits_iff, hlen, hwidth, hheight, hshrink]

/-- An image of 3547 by 3547 pixels is sent as 12,588,304 bytes, past the cap. -/
theorem upload_past_cap :
    ∃ image shrink, upload 1 1 .rgba 3547 3547 (List.replicate (3547 * 3547 * 4) 0) =
        some (image, shrink) ∧ imageWireBytes < image.rgba.length := by
  obtain ⟨image, shrink, hsent, hshrink, hwidth, hheight, hlen, -⟩ :=
    @upload_eq 1 1 .rgba 4 rfl 3547 3547 (List.replicate (3547 * 3547 * 4) 0)
      (by rw [List.length_replicate]; decide)
  refine ⟨image, shrink, hsent, ?_⟩
  rw [hlen, hwidth, hheight, hshrink]
  decide

theorem upload_fits_iff_gray :
    FactorFits 1 1 ∧ ∃ image shrink, upload 7 2 .gray 1 1 [9] = some (image, shrink) ∧
      image.rgba.length ≤ imageWireBytes := by
  have hfits : FactorFits 1 1 := factorFits_of_le (by decide)
  obtain ⟨image, shrink, hsent, -, -, hcap⟩ :=
    upload_fits_iff 7 2 .gray 1 rfl 1 1 [9] (by decide)
  exact ⟨hfits, image, shrink, hsent, hcap.mpr hfits⟩

end Slopty.Engine.Graphics
