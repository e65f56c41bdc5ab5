import MarketDataProcessor.Core.Double
import Mathlib.Data.List.AList
import Mathlib.Data.List.TakeWhile

/-!
# Ticks, snapshots and symbols

`core/MarketTick.hpp` and `core/MarketSnapshot.hpp`. The padding bytes of a tick are left out:
nothing reads them.

A symbol is eight bytes. The stages key their per-symbol state in two ways: the Normalizer by the
eight bytes, everything downstream by the string up to the first NUL (`Symbol.key`, the source's
`strnlen`). The two agree on symbols that are zero after their first NUL (`Symbol.Padded`), which is
what `MarketTick.make` builds: `Symbol.key_injOn`.

## Fixed arrays and strings

`MarketTick.make` copies at most eight bytes and fills with zeros, so a name of eight bytes has no
terminating NUL; `TickParser::enrich` gives it one by overwriting the last byte. Both leave the
symbol padded (`Padded.set_last`), and that is the only property of the eight bytes the pipeline
depends on: with it, keying by bytes and keying by string are the same thing.

Prices and volumes are `Double`, which has the special values; timestamps are integers, since no
arithmetic of the program wraps them. `UnorderedMap` is an association list without duplicate keys:
the order of its buckets is nothing any function modelled here iterates over.
-/

namespace Mdp

/-- `std::array<char, 8>`. -/
abbrev Symbol := Vector UInt8 8

namespace Symbol

/-- `std::string{data, strnlen(data, 8)}`: the bytes before the first NUL. -/
def key (s : Symbol) : List UInt8 := s.toList.takeWhile (· ≠ 0)

/-- Every byte after the first NUL is NUL. -/
def Padded (s : Symbol) : Prop := ∀ b ∈ s.toList.dropWhile (· ≠ 0), b = 0

instance (s : Symbol) : Decidable s.Padded := inferInstanceAs (Decidable (∀ b ∈ _, _))

theorem Padded.toList_eq {s : Symbol} (h : s.Padded) :
    s.toList = s.key ++ List.replicate (8 - s.key.length) 0 := by
  have hsplit : s.key ++ s.toList.dropWhile (· ≠ 0) = s.toList := List.takeWhile_append_dropWhile
  have hlen : s.key.length + (s.toList.dropWhile (· ≠ 0)).length = 8 := by
    rw [← List.length_append, hsplit, Vector.length_toList]
  rw [← hsplit]
  refine congrArg _ (List.eq_replicate_iff.2 ⟨by omega, h⟩)

/-- Terminating a padded symbol at its last byte leaves it padded. -/
theorem Padded.set_last {s : Symbol} (h : s.Padded) : Padded (s.set 7 0) := by
  by_cases hlen : s.key.length = 8
  · -- no NUL at all: the seven bytes before the new one are kept
    have hkey : s.toList = s.key := by rw [h.toList_eq, hlen]; simp
    have hset : (s.set 7 0).toList = s.toList.take 7 ++ [0] := by
      rw [Vector.toList_set, List.set_eq_take_append_cons_drop]
      simp
    have hne : ∀ b ∈ s.toList.take 7, decide (b ≠ 0) = true := by
      intro b hb
      have hmem := List.mem_of_mem_take hb
      rw [hkey] at hmem
      exact List.mem_takeWhile_imp (p := fun b ↦ decide (b ≠ 0)) hmem
    rw [Padded, hset, List.dropWhile_append_of_pos hne]
    simp
  · -- the last byte is NUL already
    have hle : s.key.length ≤ 7 := by
      have : s.key.length ≤ s.toList.length := (List.takeWhile_sublist _).length_le
      rw [Vector.length_toList] at this
      omega
    have hlast : s.toList[7]? = some 0 := by
      rw [h.toList_eq, List.getElem?_append_right hle, List.getElem?_replicate, if_pos (by omega)]
    have hself : s.set 7 0 = s := by
      have hget : s[7] = 0 := by
        rw [List.getElem?_eq_getElem (by simp), Option.some.injEq] at hlast
        rwa [Vector.getElem_toList] at hlast
      rw [← hget, Vector.set_getElem_self]
    rwa [hself]

/-- **On padded symbols the string determines the bytes.** -/
theorem key_injOn {s t : Symbol} (hs : s.Padded) (ht : t.Padded) (h : s.key = t.key) : s = t := by
  have hlist : s.toList = t.toList := by rw [hs.toList_eq, ht.toList_eq, h]
  exact Vector.toList_inj.1 hlist

end Symbol

/-- A market data tick. -/
structure MarketTick where
  symbol : Symbol
  price : Double
  volume : Double
  timestampNs : ℤ
  side : UInt8
  deriving DecidableEq

/-- `MarketTick::make`: the first eight bytes of `sym`, zero-filled, at clock reading `now`. -/
def MarketTick.make (sym : List UInt8) (price volume : Double) (side : UInt8) (now : ℤ) :
    MarketTick where
  symbol := Vector.ofFn fun i ↦ sym.getD i 0
  price
  volume
  timestampNs := now
  side

/-- One share of symbol `A` at time 1, for concrete runs. -/
def MarketTick.shareOfA (price : ℚ) : MarketTick := .make [65] (.fin price) (.fin 1) 0 1

/-- A consolidated top-of-book record. -/
structure MarketSnapshot where
  symbol : Symbol
  price : Double
  volume : Double
  timestampNs : ℤ
  sequence : ℤ
  deriving DecidableEq

/-! ### Hash maps -/

/-- `std::unordered_map`, up to the order of its buckets. -/
abbrev UnorderedMap (K V : Type) := AList fun _ : K ↦ V

end Mdp
