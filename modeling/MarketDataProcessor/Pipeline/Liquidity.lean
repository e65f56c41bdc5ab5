import MarketDataProcessor.Pipeline.Sequential
import Mathlib.Tactic.NormNum

/-!
# Does a validated tick ever delete liquidity?

The parser accepts a tick when its volume, a `double`, is positive. The book takes volume zero, of
an integer, to mean "remove this price level". In between stands `tick_to_delta`, which truncates. A
volume strictly between zero and one passes the parser and arrives as a removal.

At the other end, `static_cast<uint64_t>` has no defined result for volumes from `2^64` on, and the
parser accepts those too, `+inf` included. What such a tick does depends on the platform.

`keepsLiquidity_iff` puts the two ends together: the sequences on which every platform applies
level-setting deltas only are those whose forwarded ticks have volumes from one up to `2^64`.

## The two directions

That whole volumes suffice is an invariant along the run: no book has had a level removed
(`NoneRemoved.processTick`), because a positive delta never removes one. That they are needed takes
no run at all. A volume the parser lets through is positive, and for each one outside the range
there is a platform on which `tick_to_delta` makes zero of it (`exists_toUInt64_eq_zero`): below one
every platform does, and from `2^64` on the platform that answers zero, which the standard allows.
-/

namespace Mdp

open Double BookProcessor

/-- The tick is applied as an update that sets its level or is refused as crossed, and no book has
had a level removed. -/
structure KeepsLiquidity (fl : FloatEnv) (bp : BookProcessor) (tick : MarketTick) : Prop where
  /-- The delta is not a removal. -/
  volume : 1 ≤ (bp.deltaOf fl tick).volume
  /-- It sets its level or is refused. -/
  sets : (bp.bookOf tick.symbol.key).refuses (bp.deltaOf fl tick) = true ∨
    (((bp.processTick fl tick).bookOf tick.symbol.key).levels (bp.sideOf fl tick)).find?
      tick.price = some (bp.deltaOf fl tick).volume
  /-- `levels_removed` is zero in every book. -/
  none_removed : ∀ symbol book, (bp.processTick fl tick).book symbol = some book →
    book.levelsRemoved = 0

/-- The volumes `tick_to_delta` turns into a positive one on every platform. -/
def WholeVolume (volume : Double) : Prop := ∃ v : ℚ, volume = fin v ∧ 1 ≤ v ∧ v < 2 ^ 64

variable {fl : FloatEnv} {bp : BookProcessor} {tick : MarketTick}

theorem WholeVolume.toUInt64_pos {volume : Double} (h : WholeVolume volume) (fl : FloatEnv) :
    0 < fl.toUInt64 volume := by
  obtain ⟨v, rfl, hone, hmax⟩ := h
  rw [UInt64.pos_iff_ne_zero, ne_eq,
    fl.toUInt64_fin_eq_zero_iff (le_trans zero_le_one hone) hmax]
  exact not_lt.2 hone

/-- **A positive volume that some platform truncates to zero**, unless it is whole. -/
theorem exists_toUInt64_eq_zero {volume : Double} (hpos : 0 < volume) (h : ¬ WholeVolume volume) :
    ∃ fl : FloatEnv, fl.toUInt64 volume = 0 := by
  refine ⟨FloatEnv.exact fun _ ↦ 0, ?_⟩
  cases volume with
  | nan => exact absurd hpos (by decide)
  | negInf => exact absurd hpos (by decide)
  | posInf => rfl
  | fin v =>
    have hv : 0 < v := fin_pos.1 hpos
    by_cases hmax : v < 2 ^ 64
    · rw [FloatEnv.toUInt64_fin_eq_zero_iff _ hv.le hmax]
      by_contra hone
      exact h ⟨v, rfl, not_lt.1 hone, hmax⟩
    · rw [FloatEnv.toUInt64, if_neg fun hrange ↦ hmax hrange.2]
      rfl

/-- No book has had a level removed. -/
def NoneRemoved (bp : BookProcessor) : Prop :=
  ∀ symbol book, bp.book symbol = some book → book.levelsRemoved = 0

theorem NoneRemoved.processTick (hv : 0 < (bp.deltaOf fl tick).volume) (h : NoneRemoved bp) :
    NoneRemoved (bp.processTick fl tick) :=
  forall_book_processTick (fun _ ↦ rfl) (fun _ hb ↦ (OrderBook.levelsRemoved_apply hv).trans hb) h

/-- **A whole volume keeps liquidity**, on every platform. -/
theorem keepsLiquidity_of_wholeVolume (hv : WholeVolume tick.volume) (h : NoneRemoved bp) :
    KeepsLiquidity fl bp tick := by
  have hpos : 0 < (bp.deltaOf fl tick).volume := hv.toUInt64_pos fl
  refine ⟨?_, ?_, h.processTick hpos⟩
  · have hnat : 0 < (bp.deltaOf fl tick).volume.toNat := hpos
    rw [UInt64.le_iff_toNat_le]
    exact hnat
  · cases hr : (bp.bookOf tick.symbol.key).refuses (bp.deltaOf fl tick) with
    | true => exact Or.inl rfl
    | false =>
      right
      rw [bookOf_processTick_self, ← OrderedMap.mem_entries_iff]
      exact (OrderBook.mem_levels_apply_iff hpos hr).2 (Or.inl ⟨rfl, rfl, rfl⟩)

/-- **The liquidity-keeping inputs.** Every tick of a raw sequence that reaches the book processor
is applied as a level-setting or refused delta, with no level ever removed, on every platform,
exactly when the volume of each of them is at least one and below `2^64`. -/
theorem keepsLiquidity_iff (dbQueue signalQueue : Option SnapshotQueue) (raw : List MarketTick) :
    (∀ (fl : FloatEnv) (seen rest : List MarketTick) (tick : MarketTick),
        forwardedTicks raw = seen ++ tick :: rest →
        KeepsLiquidity fl ((offering fl).state (fresh dbQueue signalQueue) seen) tick) ↔
      ∀ tick ∈ forwardedTicks raw, WholeVolume tick.volume := by
  constructor
  · intro h tick htick
    by_contra hwhole
    -- the parser let the tick through, so its volume is positive and truncates to zero somewhere
    have hvalid := TickParser.validate_iff.1 (validate_of_mem_forwardedTicks htick)
    obtain ⟨fl, hzero⟩ := exists_toUInt64_eq_zero hvalid.2.1 hwhole
    obtain ⟨seen, rest, hsplit⟩ := List.append_of_mem htick
    have hone : 1 ≤ fl.toUInt64 tick.volume := (h fl seen rest tick hsplit).volume
    rw [hzero] at hone
    exact absurd hone (by decide)
  · intro h fl seen rest tick hsplit
    have hmem : ∀ t ∈ seen ++ tick :: rest, WholeVolume t.volume := hsplit ▸ h
    have hseen : NoneRemoved ((offering fl).state (fresh dbQueue signalQueue) seen) := by
      refine (offering fl).state_invariant (P := NoneRemoved)
        (fun bp t (hv : WholeVolume t.volume) hnone ↦ hnone.processTick (hv.toUInt64_pos fl))
        (fun t ht ↦ hmem t (List.mem_append_left _ ht)) ?_
      intro symbol book hbook
      exact absurd hbook (by simp [fresh, BookProcessor.book])
    exact keepsLiquidity_of_wholeVolume (hmem tick (by simp)) hseen

/-- A tick of symbol `A`. -/
def volumeOfA (price volume : ℚ) (timestamp : ℤ) : MarketTick :=
  .make [65] (fin price) (fin volume) 0 timestamp

/-- **A validated tick can delete liquidity.** Bids at 100 and 99 are set, then half a share at 99
validates, is forwarded, and removes the bid at 99. -/
theorem half_share_removes_bid :
    ¬ (∀ (fl : FloatEnv) (raw seen rest : List MarketTick) (tick : MarketTick),
        forwardedTicks raw = seen ++ tick :: rest →
        KeepsLiquidity fl ((offering fl).state (fresh none none) seen) tick) ∧
      ((((offering (FloatEnv.exact fun _ ↦ 0)).state (fresh none none)
        (forwardedTicks [volumeOfA 100 1 1, volumeOfA 99 1 2, volumeOfA 99 (1 / 2) 3])).book
          [65]).map OrderBook.levelsRemoved = some 1) := by
  constructor
  · intro hall
    have hthird := (hall (FloatEnv.exact fun _ ↦ 0)
      [volumeOfA 100 1 1, volumeOfA 99 1 2, volumeOfA 99 (1 / 2) 3]
      [volumeOfA 100 1 1, volumeOfA 99 1 2] [] (volumeOfA 99 (1 / 2) 3) (by decide +kernel)).volume
    exact absurd hthird (by decide +kernel)
  · decide +kernel

end Mdp
