import Slopty.Lib.Machine
import Mathlib.Data.Nat.Bitwise
import Mathlib.Data.List.Induction
import Mathlib.Data.List.ModifyLast

/-!
Bytes as bits, the most significant first: a reader that takes bits off the front, a writer that
puts them at the end, and parsers that depend on no more than the bits they take.
-/

namespace Slopty.Lib

universe u v

/-- The `n` low bits of a number, the most significant first. -/
def beBits : Nat → Nat → List Bool
  | 0, _ => []
  | n + 1, v => v.testBit n :: beBits n v

def byteBits (b : UInt8) : List Bool := beBits 8 b.toNat

def bitsOf (bytes : Bytes) : List Bool := bytes.flatMap byteBits

def ofBits (bits : List Bool) : Nat := bits.foldl (fun n b => 2 * n + b.toNat) 0

@[simp] theorem length_beBits (n v : Nat) : (beBits n v).length = n := by
  induction n with
  | zero => rfl
  | succ n ih => rw [beBits, List.length_cons, ih]

@[simp] theorem length_byteBits (b : UInt8) : (byteBits b).length = 8 := length_beBits 8 _

theorem bitsOf_cons (b : UInt8) (bytes : Bytes) : bitsOf (b :: bytes) = byteBits b ++ bitsOf bytes :=
  rfl

theorem bitsOf_append (front back : Bytes) : bitsOf (front ++ back) = bitsOf front ++ bitsOf back :=
  List.flatMap_append

@[simp] theorem length_bitsOf (bytes : Bytes) : (bitsOf bytes).length = 8 * bytes.length := by
  induction bytes with
  | nil => rfl
  | cons b bytes ih =>
      rw [bitsOf_cons, List.length_append, length_byteBits, ih, List.length_cons]
      omega

theorem ofBits_append_singleton (bits : List Bool) (b : Bool) :
    ofBits (bits ++ [b]) = 2 * ofBits bits + b.toNat := by
  rw [ofBits, List.foldl_append, List.foldl_cons, List.foldl_nil]
  rfl

theorem foldl_ofBits (bits : List Bool) (n : Nat) :
    bits.foldl (fun n b => 2 * n + b.toNat) n = 2 ^ bits.length * n + ofBits bits := by
  induction bits using List.reverseRecOn with
  | nil => simp [ofBits]
  | append_singleton bits b ih =>
      rw [List.foldl_append, List.foldl_cons, List.foldl_nil, ih, ofBits_append_singleton,
        List.length_append, List.length_singleton, Nat.pow_succ, Nat.mul_add, ← Nat.mul_assoc,
        Nat.mul_comm 2 (2 ^ bits.length), Nat.add_assoc]

theorem ofBits_cons (b : Bool) (bits : List Bool) :
    ofBits (b :: bits) = 2 ^ bits.length * b.toNat + ofBits bits := by
  rw [ofBits, List.foldl_cons, foldl_ofBits]
  simp

theorem ofBits_beBits (n v : Nat) : ofBits (beBits n v) = v % 2 ^ n := by
  induction n with
  | zero => simp [beBits, ofBits, Nat.mod_one]
  | succ n ih =>
      rw [beBits, ofBits_cons, length_beBits, ih, Nat.mod_pow_succ, Nat.testBit_eq_decide_div_mod_eq]
      rcases Nat.mod_two_eq_zero_or_one (v / 2 ^ n) with h | h <;> simp [h, Nat.add_comm]

theorem ofBits_lt (bits : List Bool) : ofBits bits < 2 ^ bits.length := by
  induction bits with
  | nil => decide
  | cons b bits ih =>
      rw [ofBits_cons, List.length_cons, Nat.pow_succ]
      cases b <;> simp <;> omega

structure BitReader where
  unread : List Bool
  pos : Nat
  deriving DecidableEq

def Parse (α : Type u) := BitReader → Option (α × BitReader)

namespace Parse

variable {α : Type u} {β : Type v}

def flag : Parse Bool
  | ⟨b :: rest, pos⟩ => some (b, ⟨rest, pos + 1⟩)
  | ⟨[], _⟩ => none

def fail : Parse α := fun _ => none

def ok (a : α) : Parse α := fun r => some (a, r)

def andThen (p : Parse α) (q : α → Parse β) : Parse β := fun r =>
  (p r).bind fun out => q out.1 out.2

instance : Monad Parse where
  pure := ok
  bind := andThen

def map (p : Parse α) (f : α → β) : Parse β := andThen p fun a => ok (f a)

/-- Parse something that is there only under a condition. -/
def cond (there : Bool) (p : Parse Unit) : Parse Unit := if there then p else ok ()

def flagIf (there : Bool) : Parse Bool := if there then flag else ok false

def skip (n : Nat) : Parse Unit := fun r =>
  if n ≤ r.unread.length then some ((), ⟨r.unread.drop n, r.pos + n⟩) else none

def times (p : Parse α) : Nat → Parse (List α)
  | 0 => ok []
  | n + 1 => andThen p fun a => map (times p n) (a :: ·)

def forEach (items : List α) (p : α → Parse Unit) : Parse Unit :=
  match items with
  | [] => ok ()
  | a :: items => andThen (p a) fun _ => forEach items p

/-- A number in `n` bits. -/
def read (n : Nat) : Parse Nat := map (times flag n) ofBits

/-- Zero bits up to a set one, `room` of them at most. -/
def zeros : Nat → Parse Nat
  | 0 => andThen flag fun set => if set then ok 0 else fail
  | room + 1 => andThen flag fun set => if set then ok 0 else map (zeros room) (· + 1)

/-- An unsigned Exp-Golomb code of a 32-bit number. -/
def ue : Parse Nat := andThen (zeros 31) fun zeros => map (read zeros) (2 ^ zeros - 1 + ·)

def Reads (p : Parse α) (a : α) (code : List Bool) : Prop :=
  ∀ rest pos, p ⟨code ++ rest, pos⟩ = some (a, ⟨rest, pos + code.length⟩)

/-- Whatever is read is read of a code, whatever follows that. -/
def Exact (p : Parse α) : Prop :=
  ∀ r a s, p r = some (a, s) → ∃ code, r.unread = code ++ s.unread ∧
    s.pos = r.pos + code.length ∧ p.Reads a code

theorem bind_eq_some {γ : Type u} {p : Parse α} {q : α → Parse γ} {r s : BitReader} {c : γ} :
    (p >>= q) r = some (c, s) ↔ ∃ a mid, p r = some (a, mid) ∧ q a mid = some (c, s) := by
  refine Option.bind_eq_some_iff.trans ⟨?_, ?_⟩
  · rintro ⟨⟨a, mid⟩, hp, hq⟩
    exact ⟨a, mid, hp, hq⟩
  · rintro ⟨a, mid, hp, hq⟩
    exact ⟨⟨a, mid⟩, hp, hq⟩

theorem pure_eq_some {a b : α} {r s : BitReader} :
    (Pure.pure a : Parse α) r = some (b, s) ↔ a = b ∧ r = s := by
  refine Option.some_inj.trans ?_
  rw [Prod.mk.injEq]

theorem Reads.ok (a : α) : (ok a).Reads a [] := fun _ _ => rfl

theorem Reads.andThen {p : Parse α} {q : α → Parse β} {a : α} {b : β} {code code' : List Bool}
    (hp : p.Reads a code) (hq : (q a).Reads b code') :
    (p.andThen q).Reads b (code ++ code') := by
  intro rest pos
  rw [List.append_assoc, Parse.andThen, hp, Option.bind_some, hq, List.length_append,
    Nat.add_assoc]

theorem Reads.bind {γ : Type u} {p : Parse α} {q : α → Parse γ} {a : α} {c : γ}
    {code code' : List Bool} (hp : p.Reads a code) (hq : (q a).Reads c code') :
    (p >>= q).Reads c (code ++ code') :=
  hp.andThen hq

theorem Reads.map {p : Parse α} {a : α} {code : List Bool} (hp : p.Reads a code) (f : α → β) :
    (p.map f).Reads (f a) code := by
  have := hp.andThen (q := fun a => Parse.ok (f a)) (Reads.ok (f a))
  rwa [List.append_nil] at this

theorem Reads.flag (b : Bool) : Parse.flag.Reads b [b] := fun _ _ => rfl

namespace Exact

theorem ok (a : α) : (Parse.ok a).Exact := by
  rintro r _ _ h
  obtain ⟨rfl, rfl⟩ := Prod.mk.inj (Option.some.inj h)
  exact ⟨[], rfl, rfl, Reads.ok _⟩

theorem fail : (Parse.fail : Parse α).Exact := fun _ _ _ h => absurd h nofun

theorem andThen {p : Parse α} {q : α → Parse β} (hp : p.Exact) (hq : ∀ a, (q a).Exact) :
    (p.andThen q).Exact := by
  intro r b s h
  obtain ⟨⟨a, mid⟩, hmid, hlast⟩ := Option.bind_eq_some_iff.mp h
  obtain ⟨code, hread, hpos, hreads⟩ := hp r a mid hmid
  obtain ⟨code', hread', hpos', hreads'⟩ := hq a mid b s hlast
  refine ⟨code ++ code', ?_, ?_, hreads.andThen hreads'⟩
  · rw [hread, hread', List.append_assoc]
  · rw [hpos', hpos, List.length_append, Nat.add_assoc]

theorem map {p : Parse α} (hp : p.Exact) (f : α → β) : (p.map f).Exact :=
  hp.andThen fun a => ok (f a)

theorem pure (a : α) : (Pure.pure a : Parse α).Exact := ok a

theorem bind {γ : Type u} {p : Parse α} {q : α → Parse γ} (hp : p.Exact)
    (hq : ∀ a, (q a).Exact) : (p >>= q).Exact :=
  andThen hp hq

theorem ite {c : Prop} [Decidable c] {p q : Parse α} (hp : p.Exact) (hq : q.Exact) :
    (if c then p else q).Exact := by
  split
  · exact hp
  · exact hq

theorem cond {p : Parse Unit} (hp : p.Exact) (there : Bool) : (Parse.cond there p).Exact := by
  cases there
  · exact ok ()
  · exact hp

theorem flag : Parse.flag.Exact := by
  rintro ⟨_ | ⟨b, rest⟩, pos⟩ a s h
  · exact absurd h nofun
  · obtain ⟨rfl, rfl⟩ := Prod.mk.inj (Option.some.inj h)
    exact ⟨[b], rfl, rfl, Reads.flag b⟩

theorem flagIf (there : Bool) : (Parse.flagIf there).Exact := by
  cases there
  · exact ok false
  · exact flag

theorem skip (n : Nat) : (Parse.skip n).Exact := by
  intro r a s h
  unfold Parse.skip at h
  split at h
  · rename_i hn
    obtain ⟨-, rfl⟩ := Prod.mk.inj (Option.some.inj h)
    have hlen : (r.unread.take n).length = n := by
      rw [List.length_take]
      omega
    refine ⟨r.unread.take n, (List.take_append_drop n r.unread).symm, by rw [hlen], ?_⟩
    intro rest pos
    rw [Parse.skip, if_pos (by rw [List.length_append]; omega), hlen]
    exact congrArg (fun rest => some ((), BitReader.mk rest (pos + n))) (List.drop_left' hlen)
  · exact absurd h nofun

theorem times {p : Parse α} (hp : p.Exact) (n : Nat) : (p.times n).Exact := by
  induction n with
  | zero => exact ok []
  | succ n ih => exact hp.andThen fun a => ih.map _

theorem forEach {p : α → Parse Unit} (hp : ∀ a, (p a).Exact) (items : List α) :
    (Parse.forEach items p).Exact := by
  induction items with
  | nil => exact ok ()
  | cons a items ih => exact (hp a).andThen fun _ => ih

theorem read (n : Nat) : (Parse.read n).Exact := (flag.times n).map _

theorem zeros (room : Nat) : (Parse.zeros room).Exact := by
  induction room with
  | zero =>
      refine flag.andThen fun set => ?_
      cases set
      · exact fail
      · exact ok 0
  | succ room ih =>
      refine flag.andThen fun set => ?_
      cases set
      · exact ih.map _
      · exact ok 0

theorem ue : Parse.ue.Exact := (zeros 31).andThen fun n => (read n).map _

theorem of_prefix {p : Parse α} (hp : p.Exact) {bits : List Bool} {pos : Nat} {a : α}
    {s : BitReader} (h : p ⟨bits, pos⟩ = some (a, s)) {more : List Bool} (hmore : bits <+: more)
    (pos' : Nat) : (p ⟨more, pos'⟩).map Prod.fst = some a := by
  obtain ⟨code, hread, -, hreads⟩ := hp _ _ _ h
  obtain ⟨tail, rfl⟩ := hmore
  simp only at hread
  rw [hread, List.append_assoc, hreads]
  rfl

end Exact

theorem times_flag_reads (bits : List Bool) : (flag.times bits.length).Reads bits bits := by
  induction bits with
  | nil => exact Reads.ok []
  | cons b bits ih => exact (Reads.flag b).andThen (ih.map _)

theorem read_reads (n v : Nat) : (read n).Reads (v % 2 ^ n) (beBits n v) := by
  have := (times_flag_reads (beBits n v)).map ofBits
  rwa [length_beBits, ofBits_beBits] at this

theorem zeros_reads {room n : Nat} (h : n ≤ room) :
    (zeros room).Reads n (List.replicate n false ++ [true]) := by
  induction n generalizing room with
  | zero =>
      cases room with
      | zero => exact (Reads.flag true).andThen (Reads.ok 0)
      | succ room => exact (Reads.flag true).andThen (Reads.ok 0)
  | succ n ih =>
      obtain ⟨room, rfl⟩ : ∃ r, room = r + 1 := ⟨room - 1, by omega⟩
      exact (Reads.flag false).andThen ((ih (Nat.le_of_succ_le_succ h)).map (· + 1))

/-- The Exp-Golomb code of a number: the bits of the number after it, behind as many zeros as there
are past the first. -/
def ueBits (v : Nat) : List Bool :=
  List.replicate (v + 1).log2 false ++ beBits ((v + 1).log2 + 1) (v + 1)

theorem ue_reads {v : Nat} (h : v + 1 < 2 ^ 32) : ue.Reads v (ueBits v) := by
  generalize hn : (v + 1).log2 = n
  have hle : 2 ^ n ≤ v + 1 := hn ▸ Nat.log2_self_le (Nat.succ_ne_zero v)
  have hlt : v + 1 < 2 ^ (n + 1) := hn ▸ Nat.lt_log2_self
  have hroom : n ≤ 31 := by
    have hlog : (v + 1).log2 < 32 := (Nat.log2_lt (Nat.succ_ne_zero v)).mpr h
    omega
  rw [Nat.pow_succ] at hlt
  have htop : (v + 1).testBit n = true := by
    have hdiv : (v + 1) / 2 ^ n = 1 := Nat.div_eq_of_lt_le (by omega) (by omega)
    rw [Nat.testBit_eq_decide_div_mod_eq, hdiv]
    rfl
  have hcode : ueBits v = (List.replicate n false ++ [true]) ++ beBits n (v + 1) := by
    rw [ueBits, hn, beBits, htop, List.append_assoc, List.singleton_append]
  have hvalue : 2 ^ n - 1 + (v + 1) % 2 ^ n = v := by
    have hmod : (v + 1) % 2 ^ n = v + 1 - 2 ^ n := by
      rw [Nat.mod_eq_sub_mod hle, Nat.mod_eq_of_lt (by omega)]
    have := Nat.two_pow_pos n
    omega
  have hlow := (read_reads n (v + 1)).map (2 ^ n - 1 + ·)
  rw [hvalue] at hlow
  rw [hcode]
  exact Reads.andThen (q := fun zeros => map (read zeros) (2 ^ zeros - 1 + ·)) (zeros_reads hroom) hlow

theorem length_of_times {p : Parse α} {n : Nat} {r s : BitReader} {values : List α}
    (h : p.times n r = some (values, s)) : values.length = n := by
  induction n generalizing r s values with
  | zero =>
      obtain ⟨rfl, -⟩ := Prod.mk.inj (Option.some.inj h)
      rfl
  | succ n ih =>
      obtain ⟨⟨a, mid⟩, -, hrest⟩ := Option.bind_eq_some_iff.mp h
      obtain ⟨⟨others, last⟩, hothers, hlast⟩ := Option.bind_eq_some_iff.mp hrest
      obtain ⟨rfl, -⟩ := Prod.mk.inj (Option.some.inj hlast)
      rw [List.length_cons, ih hothers]

theorem zeros_le {room n : Nat} {r s : BitReader} (h : zeros room r = some (n, s)) : n ≤ room := by
  induction room generalizing r s n with
  | zero =>
      obtain ⟨⟨set, mid⟩, -, hrest⟩ := Option.bind_eq_some_iff.mp h
      cases set
      · exact absurd hrest nofun
      · exact (Prod.mk.inj (Option.some.inj hrest)).1.ge
  | succ room ih =>
      obtain ⟨⟨set, mid⟩, -, hrest⟩ := Option.bind_eq_some_iff.mp h
      cases set
      · obtain ⟨⟨m, last⟩, hm, hlast⟩ := Option.bind_eq_some_iff.mp hrest
        obtain ⟨rfl, -⟩ := Prod.mk.inj (Option.some.inj hlast)
        exact Nat.succ_le_succ (ih hm)
      · exact (Prod.mk.inj (Option.some.inj hrest)).1 ▸ Nat.zero_le _

theorem ue_lt {v : Nat} {r s : BitReader} (h : ue r = some (v, s)) : v + 1 < 2 ^ 32 := by
  obtain ⟨⟨n, mid⟩, hn, hrest⟩ := Option.bind_eq_some_iff.mp h
  obtain ⟨⟨low, last⟩, hlow, hlast⟩ := Option.bind_eq_some_iff.mp hrest
  obtain ⟨⟨bits, mid'⟩, hbits, hofBits⟩ := Option.bind_eq_some_iff.mp hlow
  obtain ⟨rfl, -⟩ := Prod.mk.inj (Option.some.inj hlast)
  obtain ⟨rfl, -⟩ := Prod.mk.inj (Option.some.inj hofBits)
  have hlt := ofBits_lt bits
  rw [length_of_times hbits] at hlt
  have hpow : 2 ^ n ≤ 2 ^ 31 := Nat.pow_le_pow_right (by decide) (zeros_le hn)
  simp only at hlt ⊢
  omega

theorem ue_of_zeros {bits : List Bool} (h : ∀ b ∈ bits, b = false) (pos : Nat) :
    ue ⟨bits, pos⟩ = none := by
  have hzeros (room : Nat) : zeros room ⟨bits, pos⟩ = none := by
    induction bits generalizing room pos with
    | nil => cases room <;> rfl
    | cons b bits ih =>
        have hb : b = false := h b List.mem_cons_self
        subst hb
        have ih := ih (fun b hb => h b (List.mem_cons_of_mem _ hb)) (pos + 1)
        cases room with
        | zero => rfl
        | succ room =>
            have hrest : zeros (room + 1) ⟨false :: bits, pos⟩ =
                (zeros room ⟨bits, pos + 1⟩).bind fun out => ok (out.1 + 1) out.2 := rfl
            rw [hrest, ih room]
            rfl
  rw [ue, andThen, hzeros]
  rfl

end Parse

def bitAt (bytes : Bytes) (i : Nat) : Option Bool :=
  bytes[i / 8]?.map fun byte => byte.toNat.testBit (7 - i % 8)

theorem getElem?_beBits {n i : Nat} (v : Nat) (h : i < n) :
    (beBits n v)[i]? = some (v.testBit (n - 1 - i)) := by
  induction n generalizing i with
  | zero => exact absurd h (Nat.not_lt_zero i)
  | succ n ih =>
      cases i with
      | zero => rfl
      | succ i =>
          rw [beBits, List.getElem?_cons_succ, ih (Nat.lt_of_succ_lt_succ h)]
          congr 2
          omega

theorem getElem?_bitsOf (bytes : Bytes) (i : Nat) : (bitsOf bytes)[i]? = bitAt bytes i := by
  induction bytes generalizing i with
  | nil => rfl
  | cons b bytes ih =>
      rw [bitsOf_cons]
      by_cases hi : i < 8
      · rw [List.getElem?_append_left (by rwa [length_byteBits]), byteBits, getElem?_beBits _ hi,
          bitAt, Nat.div_eq_of_lt hi, Nat.mod_eq_of_lt hi]
        rfl
      · obtain ⟨j, rfl⟩ : ∃ j, i = j + 8 := ⟨i - 8, by omega⟩
        rw [List.getElem?_append_right (by rw [length_byteBits]; omega), length_byteBits,
          Nat.add_sub_cancel, ih, bitAt, bitAt, Nat.add_mod_right, Nat.add_div_right _ (by decide)]
        rfl

/-- Bits written one by one: the bytes so far, the last one padded with zero bits, and how many bits
of it are used (none when it is full). -/
structure BitWriter where
  bytes : Bytes
  used : Nat

namespace BitWriter

def empty : BitWriter := ⟨[], 0⟩

def bit (w : BitWriter) (set : Bool) : BitWriter :=
  let bytes := if w.used = 0 then w.bytes ++ [0] else w.bytes
  { bytes := if set then bytes.modifyLast (· ||| 0x80 >>> UInt8.ofNat w.used) else bytes
    used := (w.used + 1) % 8 }

/-- An unsigned Exp-Golomb code. -/
def ue (w : BitWriter) (v : Nat) : BitWriter :=
  let code := v + 1
  let len := code.log2 + 1
  let w := (List.replicate (len - 1) false).foldl bit w
  (beBits len code).foldl bit w

/-- Copy `n` bits from place `i` on. -/
def copy (w : BitWriter) (bytes : Bytes) (i n : Nat) : Option BitWriter :=
  (List.range' i n).foldlM (fun w i => (bitAt bytes i).map w.bit) w

/-- What is written are these bits, padded to whole bytes. -/
structure Holds (w : BitWriter) (bits : List Bool) : Prop where
  used : w.used = bits.length % 8
  padded : ∃ pad, pad < 8 ∧ bitsOf w.bytes = bits ++ List.replicate pad false

theorem holds_empty : empty.Holds [] := ⟨rfl, 0, by decide, rfl⟩

theorem byteBits_or (b : UInt8) {used : Nat} (h : used < 8) :
    byteBits (b ||| 0x80 >>> UInt8.ofNat used) = (byteBits b).set used true := by
  refine List.ext_getElem? fun i => ?_
  by_cases hi : i < 8
  · have hused : (UInt8.ofNat used).toNat = used := by
      rw [UInt8.toNat_ofNat']
      omega
    have htest : ((0x80 : UInt8) >>> UInt8.ofNat used).toNat.testBit (7 - i) = decide (used = i) := by
      rw [UInt8.toNat_shiftRight, hused, Nat.mod_eq_of_lt h, Nat.testBit_shiftRight]
      have h128 : (0x80 : UInt8).toNat = 2 ^ 7 := rfl
      rw [h128, Nat.testBit_two_pow]
      refine decide_eq_decide.mpr ?_
      omega
    rw [byteBits, getElem?_beBits _ hi, UInt8.toNat_or, Nat.testBit_or, htest, List.getElem?_set,
      length_byteBits, byteBits, getElem?_beBits _ hi]
    by_cases hu : used = i
    · simp [hu, hi]
    · simp [hu]
  · rw [List.getElem?_eq_none (by rw [length_byteBits]; omega),
      List.getElem?_eq_none (by rw [List.length_set, length_byteBits]; omega)]

theorem Holds.bit {w : BitWriter} {bits : List Bool} (h : w.Holds bits) (b : Bool) :
    (w.bit b).Holds (bits ++ [b]) := by
  obtain ⟨pad, hpad, hbits⟩ := h.padded
  have hlen := congrArg List.length hbits
  rw [length_bitsOf, List.length_append, List.length_replicate] at hlen
  have hlt : w.used < 8 := h.used ▸ Nat.mod_lt _ (by decide)
  -- whether or not a byte is begun, the last one has room from `used` on
  obtain ⟨front, last, hbytes, hroom⟩ : ∃ front last,
      (if w.used = 0 then w.bytes ++ [0] else w.bytes) = front ++ [last] ∧
        bitsOf front ++ byteBits last = bits ++ List.replicate (8 - w.used) false := by
    have hused := h.used
    by_cases hzero : w.used = 0
    · have hnone : pad = 0 := by omega
      refine ⟨w.bytes, 0, if_pos hzero, ?_⟩
      rw [hbits, hnone, hzero, List.append_assoc]
      rfl
    · have hsome : w.bytes ≠ [] := by
        intro hnil
        rw [hnil, List.length_nil] at hlen
        omega
      refine ⟨w.bytes.dropLast, w.bytes.getLast hsome, ?_, ?_⟩
      · rw [if_neg hzero, List.dropLast_concat_getLast]
      · have hpad' : pad = 8 - w.used := by omega
        have hlast : byteBits (w.bytes.getLast hsome) = bitsOf [w.bytes.getLast hsome] :=
          (List.append_nil _).symm
        rw [hlast, ← bitsOf_append, List.dropLast_concat_getLast, hbits, hpad']
  have hfront : bits.length = 8 * front.length + w.used := by
    have := congrArg List.length hroom
    simp only [List.length_append, length_bitsOf, length_byteBits, List.length_replicate] at this
    omega
  refine ⟨?_, 7 - w.used, by omega, ?_⟩
  · have hused := h.used
    simp only [BitWriter.bit, List.length_append, List.length_singleton]
    omega
  · have hsplit : List.replicate (8 - w.used) false = false :: List.replicate (7 - w.used) false := by
      rw [← List.replicate_succ]
      congr 1
      omega
    simp only [BitWriter.bit, hbytes]
    cases b with
    | false =>
        rw [if_neg (by decide), bitsOf_append]
        have hone : bitsOf [last] = byteBits last := List.append_nil _
        rw [hone, hroom, hsplit, List.append_assoc, List.singleton_append]
    | true =>
        have hone (b : UInt8) : bitsOf [b] = byteBits b := List.append_nil _
        have hset := congrArg (fun l => l.set bits.length true) hroom
        rw [List.set_append_right _ _ (by rw [length_bitsOf]; omega), length_bitsOf, hfront,
          Nat.add_sub_cancel_left, ← hfront, List.set_append_right _ _ (Nat.le_refl _),
          Nat.sub_self, hsplit, List.set_cons_zero] at hset
        rw [if_pos rfl, List.modifyLast_concat, bitsOf_append, hone, byteBits_or _ hlt, hset,
          List.append_assoc, List.singleton_append]

theorem Holds.foldl_bit {w : BitWriter} {bits : List Bool} (h : w.Holds bits) (more : List Bool) :
    (more.foldl BitWriter.bit w).Holds (bits ++ more) := by
  induction more generalizing w bits with
  | nil => rwa [List.append_nil]
  | cons b more ih =>
      have := ih (h.bit b)
      rwa [List.append_assoc, List.singleton_append] at this

theorem ue_eq (w : BitWriter) (v : Nat) : w.ue v = (Parse.ueBits v).foldl bit w := by
  rw [Parse.ueBits, List.foldl_append]
  rfl

theorem copy_eq {bytes : Bytes} {i n : Nat} (h : i + n ≤ 8 * bytes.length) (w : BitWriter) :
    w.copy bytes i n = some ((((bitsOf bytes).drop i).take n).foldl bit w) := by
  induction n generalizing i w with
  | zero => rfl
  | succ n ih =>
      have hi : i < (bitsOf bytes).length := by
        rw [length_bitsOf]
        omega
      have hbit : bitAt bytes i = some (bitsOf bytes)[i] := by
        rw [← getElem?_bitsOf, List.getElem?_eq_getElem hi]
      have hstep : w.copy bytes i (n + 1) = (w.bit (bitsOf bytes)[i]).copy bytes (i + 1) n := by
        rw [copy, List.range'_succ, List.foldlM_cons, hbit]
        rfl
      rw [hstep, ih (by omega), List.drop_eq_getElem_cons hi, List.take_succ_cons, List.foldl_cons]

end BitWriter

end Slopty.Lib
