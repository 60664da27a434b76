import Slopty.Lib.Machine

/-!
The third-party Reed-Solomon engine that both sides of a stream use, as far as
they use it.
-/

namespace Slopty.Media.Fec

open Slopty.Lib

/-- `decode` is given the data and the parity shards at hand, each with its
index, and answers with the data shards it restored; either call may refuse its
arguments. -/
structure ReedSolomon where
  encode : (dataCount parityCount shardBytes : Nat) → List Bytes → Option (List Bytes)
  decode : (dataCount parityCount shardBytes : Nat) →
    (original recovery : List (Nat × Bytes)) → Option (Nat → Option Bytes)

/-- Shards of a list, each with its place in it and no place twice. -/
structure ShardsOf (shards : List Bytes) (given : List (Nat × Bytes)) : Prop where
  places : given.Pairwise fun a b => a.1 < b.1
  honest : ∀ ib ∈ given, shards[ib.1]? = some ib.2

/-- What the engine promises: as many parity shards as asked for, each as long
as the data shards, and any `dataCount` of all shards restore the data shards
not given. -/
structure ReedSolomon.Mds (rs : ReedSolomon) : Prop where
  encode_length : ∀ dataCount parityCount shardBytes shards parity,
    rs.encode dataCount parityCount shardBytes shards = some parity →
    parity.length = parityCount
  encode_shard : ∀ dataCount parityCount shardBytes shards parity,
    rs.encode dataCount parityCount shardBytes shards = some parity →
    ∀ s ∈ parity, s.length = shardBytes
  restores : ∀ dataCount parityCount shardBytes shards parity original recovery,
    shards.length = dataCount →
    rs.encode dataCount parityCount shardBytes shards = some parity →
    ShardsOf shards original → ShardsOf parity recovery →
    dataCount ≤ original.length + recovery.length →
    ∃ restored, rs.decode dataCount parityCount shardBytes original recovery = some restored ∧
      ∀ i b, shards[i]? = some b → (∀ ib ∈ original, ib.1 ≠ i) → restored i = some b

/-- What the engine documents of the counts it takes: up to half the field's symbols of each kind. -/
def Documented (supports : Nat → Nat → Bool) : Prop :=
  ∀ dataCount parityCount, 1 ≤ dataCount → dataCount ≤ 32768 → 1 ≤ parityCount →
    parityCount ≤ 32768 → supports dataCount parityCount = true

end Slopty.Media.Fec
