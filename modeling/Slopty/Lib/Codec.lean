import Slopty.Lib.Utf8

/-!
Codecs: a value written in front of other bytes is read off them again. Those of compound values
are put together from those of their parts.
-/

namespace Slopty.Lib

universe u v

/-- A value's bytes, and what is read of bytes: the value they start with and the rest. -/
structure Codec (α : Type u) where
  put : α → Bytes
  take : Bytes → Option (α × Bytes)

namespace Codec

variable {α : Type u} {β : Type v}

/-- What fits is read as itself, whatever follows it. -/
def Reads (c : Codec α) (Fits : α → Prop) : Prop :=
  ∀ a, Fits a → ∀ rest, c.take (c.put a ++ rest) = some (a, rest)

def byte : Codec UInt8 where
  put b := [b]
  take
    | [] => none
    | b :: rest => some (b, rest)

def varintWith : Nat → Nat → Bytes
  | 0, _ => []
  | fuel + 1, n =>
      if n < 128 then [UInt8.ofNat n] else UInt8.ofNat (n % 128 + 128) :: varintWith fuel (n / 128)

def takeVarint : Bytes → Option (Nat × Bytes)
  | [] => none
  | b :: rest =>
      if b.toNat < 128 then some (b.toNat, rest)
      else (takeVarint rest).map fun high => (b.toNat - 128 + 128 * high.1, high.2)

/-- A number, seven bits in each byte and the lowest first. -/
def varint : Codec Nat := ⟨fun n => varintWith (n + 1) n, takeVarint⟩

def pair (c : Codec α) (d : Codec β) : Codec (α × β) where
  put p := c.put p.1 ++ d.put p.2
  take bytes :=
    (c.take bytes).bind fun first => (d.take first.2).map fun second =>
      ((first.1, second.1), second.2)

/-- The same bytes for what stands for the values of another type. -/
def map (c : Codec α) (toWire : β → α) (ofWire : α → β) : Codec β where
  put b := c.put (toWire b)
  take bytes := (c.take bytes).map fun read => (ofWire read.1, read.2)

/-- One of the values listed, as its place among them. -/
def oneOf [DecidableEq α] (values : List α) : Codec α where
  put a := [UInt8.ofNat (values.idxOf a)]
  take
    | [] => none
    | b :: rest => (values[b.toNat]?).map fun a => (a, rest)

def option (c : Codec α) : Codec (Option α) where
  put
    | none => [0]
    | some a => 1 :: c.put a
  take
    | 0 :: rest => some (none, rest)
    | 1 :: rest => (c.take rest).map fun read => (some read.1, read.2)
    | _ => none

def takeList (c : Codec α) : Nat → Bytes → Option (List α × Bytes)
  | 0, bytes => some ([], bytes)
  | n + 1, bytes =>
      (c.take bytes).bind fun first => (takeList c n first.2).map fun others =>
        (first.1 :: others.1, others.2)

/-- The number of elements, then each. -/
def list (count : Codec Nat) (c : Codec α) : Codec (List α) where
  put as := count.put as.length ++ as.flatMap c.put
  take bytes := (count.take bytes).bind fun n => takeList c n.1 n.2

def text (count : Codec Nat) : Codec Text where
  put t := count.put (Text.toUtf8 t).length ++ Text.toUtf8 t
  take bytes := (count.take bytes).bind fun n =>
    if n.2.length < n.1 then none
    else (Text.fromUtf8? (n.2.take n.1)).map fun t => (t, n.2.drop n.1)

/-- A byte string behind its length. -/
def bytes (count : Codec Nat) : Codec Bytes where
  put data := count.put data.length ++ data
  take bytes := (count.take bytes).bind fun n =>
    if n.2.length < n.1 then none else some (n.2.take n.1, n.2.drop n.1)

theorem byte_reads : byte.Reads fun _ => True := fun _ _ _ => rfl

theorem takeVarint_varintWith {fuel n : Nat} (h : n < fuel) (rest : Bytes) :
    takeVarint (varintWith fuel n ++ rest) = some (n, rest) := by
  induction fuel generalizing n with
  | zero => exact absurd h (Nat.not_lt_zero n)
  | succ fuel ih =>
      rw [varintWith]
      split
      · rename_i hlow
        have hbyte : (UInt8.ofNat n).toNat = n := by
          rw [UInt8.toNat_ofNat']
          omega
        rw [List.singleton_append, takeVarint, hbyte, if_pos hlow]
      · rename_i hhigh
        have hbyte : (UInt8.ofNat (n % 128 + 128)).toNat = n % 128 + 128 := by
          rw [UInt8.toNat_ofNat']
          omega
        rw [List.cons_append, takeVarint, hbyte, if_neg (by omega), ih (by omega),
          Option.map_some]
        congr 2
        omega

theorem varint_reads : varint.Reads fun _ => True :=
  fun n _ rest => takeVarint_varintWith (Nat.lt_succ_self n) rest

theorem Reads.mono {c : Codec α} {F G : α → Prop} (h : c.Reads F) (himp : ∀ a, G a → F a) :
    c.Reads G := fun a ha => h a (himp a ha)

theorem Reads.pair {c : Codec α} {d : Codec β} {F : α → Prop} {G : β → Prop} (hc : c.Reads F)
    (hd : d.Reads G) : (c.pair d).Reads fun p => F p.1 ∧ G p.2 := by
  rintro ⟨a, b⟩ ⟨ha, hb⟩ rest
  simp only [Codec.pair, List.append_assoc, hc a ha, hd b hb, Option.bind_some, Option.map_some]

theorem Reads.map {c : Codec α} {F : α → Prop} (h : c.Reads F) {toWire : β → α} {ofWire : α → β}
    (hback : ∀ b, ofWire (toWire b) = b) : (c.map toWire ofWire).Reads fun b => F (toWire b) := by
  intro b hb rest
  simp only [Codec.map, h _ hb, Option.map_some, hback]

theorem oneOf_reads [DecidableEq α] {values : List α} (hlen : values.length ≤ 256) :
    (oneOf values).Reads fun a => a ∈ values := by
  intro a ha rest
  have hlt := List.idxOf_lt_length_of_mem ha
  have hbyte : (UInt8.ofNat (values.idxOf a)).toNat = values.idxOf a := by
    rw [UInt8.toNat_ofNat']
    omega
  simp only [oneOf, List.singleton_append, hbyte, List.getElem?_eq_getElem hlt,
    List.getElem_idxOf, Option.map_some]

theorem Reads.option {c : Codec α} {F : α → Prop} (h : c.Reads F) :
    c.option.Reads fun o => ∀ a, o = some a → F a := by
  rintro (_ | a) ha rest
  · rfl
  · simp only [Codec.option, List.cons_append, h a (ha a rfl), Option.map_some]

theorem takeList_flatMap {c : Codec α} {F : α → Prop} (h : c.Reads F) {as : List α}
    (has : ∀ a ∈ as, F a) (rest : Bytes) :
    takeList c as.length (as.flatMap c.put ++ rest) = some (as, rest) := by
  induction as with
  | nil => rfl
  | cons a as ih =>
      rw [List.flatMap_cons, List.append_assoc, List.length_cons, takeList,
        h a (has a List.mem_cons_self)]
      simp only [Option.bind_some, ih fun b hb => has b (List.mem_cons_of_mem _ hb),
        Option.map_some]

theorem Reads.list {count : Codec Nat} {N : Nat → Prop} (hcount : count.Reads N) {c : Codec α}
    {F : α → Prop} (h : c.Reads F) :
    (Codec.list count c).Reads fun as => N as.length ∧ ∀ a ∈ as, F a := by
  rintro as ⟨hlen, has⟩ rest
  simp only [Codec.list, List.append_assoc, hcount _ hlen, Option.bind_some,
    takeList_flatMap h has]

theorem Reads.text {count : Codec Nat} {N : Nat → Prop} (hcount : count.Reads N) :
    (Codec.text count).Reads fun t => N (Text.toUtf8 t).length := by
  intro t hlen rest
  simp only [Codec.text, List.append_assoc, hcount _ hlen, Option.bind_some]
  rw [if_neg (by rw [List.length_append]; omega), List.take_left, List.drop_left,
    Text.fromUtf8?_eq_some.mpr rfl]
  rfl

theorem Reads.bytes {count : Codec Nat} {N : Nat → Prop} (hcount : count.Reads N) :
    (Codec.bytes count).Reads fun data => N data.length := by
  intro data hlen rest
  simp only [Codec.bytes, List.append_assoc, hcount _ hlen, Option.bind_some]
  rw [if_neg (by rw [List.length_append]; omega), List.take_left, List.drop_left]

end Codec

end Slopty.Lib
