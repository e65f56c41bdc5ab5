import MarketDataProcessor.Core.MarketTick

/-!
# The hash of a symbol

`Normalizer::SymbolHash`, by which both maps of the normalizer place their entries: FNV-1a over the
eight bytes. A round mixes a byte into the state and multiplies by a prime, modulo 2^64. Both halves
can be undone, so a round is injective in the state for every byte and in the byte for every state
(`fnvRound_injective`, `fnvRound_byte_injective`). Two symbols that differ in one byte therefore
have different states from that byte on, and never the same hash: the tickers of one family
(`BTCUSD`, `BTCUSC`) do not meet in a bucket by their hash alone.

## From the round to the hash

Multiplication by the prime has an inverse modulo 2^64, since the prime is odd; the number is given
and checked by one multiplication. Mixing a byte in is undone by mixing it in again.
`foldl_fnvRound_ne` then runs both symbols up to the byte in which they differ, where the states are
equal, through it, and through the rest, which keeps states apart. Symbols that differ in two bytes
may still collide: the second may undo what the first did.
-/

namespace Mdp

namespace Normalizer

/-- The FNV-1a offset basis. -/
def fnvOffset : UInt64 := 14695981039346656037

/-- The FNV-1a prime. -/
def fnvPrime : UInt64 := 1099511628211

/-- One round: `hash ^= byte; hash *= prime`. -/
def fnvRound (hash : UInt64) (byte : UInt8) : UInt64 := (hash ^^^ byte.toUInt64) * fnvPrime

/-- `SymbolHash::operator()`. -/
def symbolHash (symbol : Symbol) : UInt64 := symbol.toList.foldl fnvRound fnvOffset

/-- The inverse of the prime modulo 2^64. -/
def fnvPrimeInverse : UInt64 := 14886173955864302971

theorem fnvPrime_mul_inverse : fnvPrime * fnvPrimeInverse = 1 := by decide

theorem mul_fnvPrime_injective : Function.Injective fun hash : UInt64 ↦ hash * fnvPrime := by
  intro hash hash' h
  have hundo := congrArg (· * fnvPrimeInverse) h
  simpa only [UInt64.mul_assoc, fnvPrime_mul_inverse, UInt64.mul_one] using hundo

/-- **A round is injective in the state.** -/
theorem fnvRound_injective (byte : UInt8) : Function.Injective fun hash ↦ fnvRound hash byte := by
  intro hash hash' h
  have hmixed : hash ^^^ byte.toUInt64 = hash' ^^^ byte.toUInt64 := mul_fnvPrime_injective h
  exact (UInt64.xor_left_inj _).1 hmixed

/-- **A round is injective in the byte.** -/
theorem fnvRound_byte_injective (hash : UInt64) : Function.Injective (fnvRound hash) := by
  intro byte byte' h
  have hmixed : hash ^^^ byte.toUInt64 = hash ^^^ byte'.toUInt64 := mul_fnvPrime_injective h
  exact UInt8.toUInt64_inj.1 ((UInt64.xor_right_inj _).1 hmixed)

/-- Different states stay different, whatever bytes follow. -/
theorem foldl_fnvRound_injective (bytes : List UInt8) :
    Function.Injective fun hash ↦ bytes.foldl fnvRound hash := by
  induction bytes with
  | nil => exact fun _ _ h ↦ h
  | cons byte bytes ih => exact fun _ _ h ↦ fnvRound_injective byte (ih h)

/-- **Byte strings that differ in one place have different hashes**, from every state. -/
theorem foldl_fnvRound_ne (hash : UInt64) (before after : List UInt8) {byte byte' : UInt8}
    (hne : byte ≠ byte') :
    (before ++ byte :: after).foldl fnvRound hash ≠
      (before ++ byte' :: after).foldl fnvRound hash := by
  rw [List.foldl_append, List.foldl_append, List.foldl_cons, List.foldl_cons]
  exact fun h ↦ hne (fnvRound_byte_injective _ (foldl_fnvRound_injective after h))

/-- **Symbols that differ in exactly one byte never have the same hash.** -/
theorem symbolHash_ne {symbol symbol' : Symbol} {i : ℕ} (hi : i < 8)
    (hne : symbol[i] ≠ symbol'[i]) (hsame : ∀ j, ∀ hj : j < 8, j ≠ i → symbol[j] = symbol'[j]) :
    symbolHash symbol ≠ symbolHash symbol' := by
  have hset : symbol' = symbol.set i symbol'[i] hi := by
    refine Vector.ext fun j hj ↦ ?_
    rw [Vector.getElem_set]
    split_ifs with hij
    · subst hij
      rfl
    · exact (hsame j hj (Ne.symm hij)).symm
  have hlen : i < symbol.toList.length := by rwa [Vector.length_toList]
  -- both strings, split around the byte
  have hsplit : symbol.toList =
      symbol.toList.take i ++ symbol[i] :: symbol.toList.drop (i + 1) := by
    rw [← Vector.getElem_toList hlen, ← List.drop_eq_getElem_cons hlen, List.take_append_drop]
  have hsplit' : symbol'.toList =
      symbol.toList.take i ++ symbol'[i] :: symbol.toList.drop (i + 1) := by
    conv_lhs => rw [hset, Vector.toList_set]
    rw [List.set_eq_take_append_cons_drop, if_pos hlen]
  rw [symbolHash, symbolHash, hsplit, hsplit']
  exact foldl_fnvRound_ne _ _ _ hne

/-- Two tickers of one family. -/
theorem symbolHash_ne_family :
    symbolHash #v[66, 84, 67, 85, 83, 68, 0, 0] ≠ symbolHash #v[66, 84, 67, 85, 83, 67, 0, 0] :=
  symbolHash_ne (i := 5) (by decide) (by decide) (by decide)

end Normalizer

end Mdp
