import MarketDataProcessor.Infra.DbWriter
import MarketDataProcessor.Pipeline.RealPrices

/-!
# Do volumes stay in the range of their types?

A volume is a `double` in a tick, an unsigned integer of 64 bits in a book, a `double` again in a
snapshot and a signed integer of 64 bits in a row. The parser has the only check, that a volume is
positive; it tests `std::isinf` of the price and not of the volume.

A tick too large for the book is one thing that can go wrong. The other is a snapshot: it adds the
volumes of the two best levels, each of which may have been set long before. A snapshot is taken
when a tick moves a best price, and then the volume on the tick's side is its own, or that of the
level behind the one it removed. `Tops` says which, from the book before the tick, and
`volumesInRange_iff` that ticks of these two kinds are all that is wrong.

## What the equivalence rests on

`tops_iff` inspects an update against the book before it, and `quote_apply_ne_iff` says that the
updates it selects are those after which a snapshot is called for. `Tops.topVolume_apply` is the sum
the snapshot then has, also read off the book before. Together they are `exceeds_iff`.

That a volume too large for a row is really converted needs a writer that takes the snapshot:
`DbTaken.exists_run` is one that keeps up. And that everything is in range when no tick exceeds the
limits needs no invariant on the volumes of the books, which may hold levels of any size: a level
matters when it is the best of its side and in a snapshot, and then some tick has moved it there.
-/

namespace Mdp

open Double

/-! ### The best level of a side -/

namespace OrderBook

variable {P : Type*} [LinearOrder P]

/-- The first price is better than the second. -/
def Beats : OrderSide → P → P → Prop
  | .bid, p, q => q < p
  | .ask, p, q => p < q

/-- The best of some levels. -/
def bestOf : OrderSide → OrderedMap P UInt64 → Option (P × UInt64)
  | .bid, levels => levels.last?
  | .ask, levels => levels.first?

/-- The volume of a level, zero when there is none. -/
def volumeOf (level : Option (P × UInt64)) : UInt64 := (level.map Prod.snd).getD 0

variable {side : OrderSide} {levels : OrderedMap P UInt64} {level : P × UInt64} {p q r : P}
  {v : UInt64}

theorem not_beats_self (side : OrderSide) (p : P) : ¬ Beats side p p := by
  cases side <;> exact lt_irrefl p

theorem Beats.trans (h : Beats side p q) (h' : Beats side q r) : Beats side p r := by
  cases side with
  | bid => exact lt_trans (a := r) h' h
  | ask => exact lt_trans (a := p) h h'

/-- **The best level is beaten by none.** -/
theorem bestOf_eq_some_iff : bestOf side levels = some level ↔
    level ∈ levels.entries ∧ ∀ other ∈ levels.entries, ¬ Beats side other.1 level.1 := by
  cases side with
  | bid =>
    rw [bestOf, OrderedMap.last?_eq_some_iff]
    simp only [Beats, not_lt]
  | ask =>
    rw [bestOf, OrderedMap.first?_eq_some_iff]
    simp only [Beats, not_lt]

theorem bestOf_eq_none_iff : bestOf side levels = none ↔ levels.entries = [] := by
  cases side with
  | bid => exact OrderedMap.last?_eq_none_iff
  | ask => exact OrderedMap.first?_eq_none_iff

theorem exists_bestOf (h : level ∈ levels.entries) : ∃ best, bestOf side levels = some best := by
  refine Option.ne_none_iff_exists'.1 fun hnone ↦ ?_
  rw [bestOf_eq_none_iff.1 hnone] at h
  exact absurd h List.not_mem_nil

/-- **A price that beats the best is the best.** -/
theorem bestOf_insert_of_beats (h : ∀ best ∈ bestOf side levels, Beats side p best.1) :
    bestOf side (levels.insert p v) = some (p, v) := by
  refine bestOf_eq_some_iff.2 ⟨OrderedMap.mem_insert_iff.2 (Or.inl ⟨rfl, rfl⟩), ?_⟩
  rintro ⟨q, w⟩ hmem hbeats
  rcases OrderedMap.mem_insert_iff.1 hmem with ⟨rfl, -⟩ | ⟨-, hold⟩
  · exact not_beats_self side _ hbeats
  · obtain ⟨best, hbest⟩ : ∃ best, bestOf side levels = some best := exists_bestOf hold
    exact (bestOf_eq_some_iff.1 hbest).2 _ hold (hbeats.trans (h best hbest))

/-- **A price that does not beat the best leaves the best price.** -/
theorem map_fst_bestOf_insert (hbest : bestOf side levels = some level)
    (h : ¬ Beats side p level.1) :
    (bestOf side (levels.insert p v)).map Prod.fst = some level.1 := by
  obtain ⟨hmem, hmax⟩ := bestOf_eq_some_iff.1 hbest
  have hrest : ∀ other ∈ (levels.insert p v).entries, ¬ Beats side other.1 level.1 := by
    rintro ⟨q, w⟩ hother
    rcases OrderedMap.mem_insert_iff.1 hother with ⟨rfl, -⟩ | ⟨-, hold⟩
    · exact h
    · exact hmax _ hold
  rcases eq_or_ne level.1 p with heq | hne
  · have hnew : bestOf side (levels.insert p v) = some (level.1, v) :=
      bestOf_eq_some_iff.2 ⟨OrderedMap.mem_insert_iff.2 (Or.inl ⟨heq, rfl⟩), hrest⟩
    rw [hnew, Option.map_some]
  · have hnew : bestOf side (levels.insert p v) = some level :=
      bestOf_eq_some_iff.2 ⟨OrderedMap.mem_insert_iff.2 (Or.inr ⟨hne, hmem⟩), hrest⟩
    rw [hnew, Option.map_some]

/-- **Removing another level leaves the best.** -/
theorem bestOf_erase (h : (bestOf side levels).map Prod.fst ≠ some p) :
    bestOf side (levels.erase p) = bestOf side levels := by
  rcases hbest : bestOf side levels with - | level
  · rw [bestOf_eq_none_iff, OrderedMap.entries_erase_eq_nil_iff]
    exact Or.inl (bestOf_eq_none_iff.1 hbest)
  · rw [hbest, Option.map_some, ne_eq, Option.some.injEq] at h
    obtain ⟨hmem, hmax⟩ := bestOf_eq_some_iff.1 hbest
    refine bestOf_eq_some_iff.2 ⟨OrderedMap.mem_erase_iff.2 ⟨h, hmem⟩, fun other hother ↦ ?_⟩
    exact hmax other (OrderedMap.mem_erase_iff.1 hother).2

theorem map_fst_bestOf_erase_ne : (bestOf side (levels.erase p)).map Prod.fst ≠ some p := by
  intro h
  obtain ⟨level, hbest, hp⟩ := Option.map_eq_some_iff.1 h
  exact (OrderedMap.mem_erase_iff.1 (bestOf_eq_some_iff.1 hbest).1).1 hp

/-! ### Updates that move the best price -/

/-- The best level of a side. -/
def best (book : OrderBook P) (side : OrderSide) : Option (P × UInt64) :=
  bestOf side (book.levels side)

/-- The update moves the best price of its side, to a level of this volume: it sets a level that
beats the best, or removes the best. -/
inductive Tops (book : OrderBook P) (delta : BookDelta P) : UInt64 → Prop
  | set : 0 < delta.volume → book.refuses delta = false →
    (∀ level ∈ book.best delta.side, Beats delta.side delta.price level.1) →
    Tops book delta delta.volume
  | remove : delta.volume = 0 → (book.best delta.side).map Prod.fst = some delta.price →
    Tops book delta
      (volumeOf (bestOf delta.side ((book.levels delta.side).erase delta.price)))

variable {book : OrderBook P} {delta : BookDelta P}

theorem tops_iff_of_pos (hv : 0 < delta.volume) : Tops book delta v ↔ book.refuses delta = false ∧
    (∀ level ∈ book.best delta.side, Beats delta.side delta.price level.1) ∧
      v = delta.volume := by
  constructor
  · rintro (⟨-, hr, hbeats⟩ | ⟨hzero, -⟩)
    · exact ⟨hr, hbeats, rfl⟩
    · rw [hzero] at hv
      exact absurd hv (by decide)
  · rintro ⟨hr, hbeats, rfl⟩
    exact .set hv hr hbeats

theorem tops_iff_of_zero (hv : delta.volume = 0) : Tops book delta v ↔
    (book.best delta.side).map Prod.fst = some delta.price ∧
      v = volumeOf (bestOf delta.side ((book.levels delta.side).erase delta.price)) := by
  constructor
  · rintro (⟨hpos, -, -⟩ | ⟨-, hbest⟩)
    · rw [hv] at hpos
      exact absurd hpos (by decide)
    · exact ⟨hbest, rfl⟩
  · rintro ⟨hbest, rfl⟩
    exact .remove hv hbest

/-- **When an update moves the best price of its side, and what it leaves there.** -/
theorem tops_iff : Tops book delta v ↔
    ((book.apply delta).best delta.side).map Prod.fst ≠ (book.best delta.side).map Prod.fst ∧
      v = volumeOf ((book.apply delta).best delta.side) := by
  have hself : ∀ new, (book.apply delta).levels = Function.update book.levels delta.side new →
      (book.apply delta).best delta.side = bestOf delta.side new := by
    intro new hlevels
    rw [best, hlevels, Function.update_self]
  rcases book.apply_cases delta with ⟨hr, hlevels⟩ | ⟨hr, hv, hlevels⟩ | ⟨hv, hlevels⟩
  · -- refused
    rw [tops_iff_of_pos (refuses_iff.1 hr).1, hr]
    refine iff_of_false (fun h ↦ absurd h.1 (by simp)) fun h ↦ h.1 ?_
    rw [best, hlevels, best]
  · -- a level is set
    rw [hself _ hlevels, tops_iff_of_pos hv, and_iff_right hr]
    by_cases hbeats : ∀ level ∈ book.best delta.side, Beats delta.side delta.price level.1
    · rw [and_iff_right hbeats, bestOf_insert_of_beats hbeats, and_iff_right]
      · rfl
      · intro heq
        obtain ⟨level, hlevel, hprice⟩ := Option.map_eq_some_iff.1 heq.symm
        have hself : level.1 = delta.price := hprice
        exact not_beats_self delta.side delta.price (hself ▸ hbeats level hlevel)
    · have hsome : ∃ level, book.best delta.side = some level ∧
          ¬ Beats delta.side delta.price level.1 := by
        simpa [Option.mem_def] using hbeats
      obtain ⟨level, hlevel, hnot⟩ := hsome
      refine iff_of_false (fun h ↦ hbeats h.1) fun h ↦ h.1 ?_
      rw [map_fst_bestOf_insert hlevel hnot, hlevel, Option.map_some]
  · -- a level is removed, if it is there
    rw [hself _ hlevels, tops_iff_of_zero hv]
    by_cases hbest : (book.best delta.side).map Prod.fst = some delta.price
    · rw [hbest, and_iff_right rfl, and_iff_right map_fst_bestOf_erase_ne]
    · refine iff_of_false (fun h ↦ hbest h.1) fun h ↦ h.1 ?_
      rw [bestOf_erase hbest, best]

end OrderBook

/-- The other side. -/
def OrderSide.other : OrderSide → OrderSide
  | .bid => .ask
  | .ask => .bid

namespace OrderBook

variable {book : OrderBook Double} {delta : BookDelta Double}

theorem best_apply_other (book : OrderBook Double) (delta : BookDelta Double) :
    (book.apply delta).best delta.side.other = book.best delta.side.other := by
  rw [best, best, levels_apply_of_ne]
  cases delta.side <;> simp [OrderSide.other]

theorem PricesPositive.pos_of_best (h : book.PricesPositive) {side : OrderSide} {price : Double}
    (hprice : price ∈ (book.best side).map Prod.fst) : 0 < price := by
  obtain ⟨level, hlevel, rfl⟩ := Option.map_eq_some_iff.1 hprice
  exact h side level (bestOf_eq_some_iff.1 hlevel).1

/-- Positive prices can be told from the zero that stands for none. -/
theorem getD_zero_inj {x y : Option Double} (hx : ∀ price ∈ x, 0 < price)
    (hy : ∀ price ∈ y, 0 < price) : x.getD 0 = y.getD 0 ↔ x = y := by
  cases x with
  | none =>
    cases y with
    | none => simp
    | some q => simpa using (hy q rfl).ne
  | some p =>
    cases y with
    | none => simpa using (hx p rfl).ne'
    | some q => simp

/-- **An update moves a best price exactly if it tops its side.** -/
theorem quote_apply_ne_iff (h : book.PricesPositive) (hp : 0 < delta.price) :
    book.quote ≠ (book.apply delta).quote ↔ ∃ v, Tops book delta v := by
  have hnew : (book.apply delta).PricesPositive := h.apply hp
  have hsides : book.quote = (book.apply delta).quote ↔
      ∀ side, (book.best side).map Prod.fst = ((book.apply delta).best side).map Prod.fst := by
    have hinj : ∀ side, ((book.best side).map Prod.fst).getD 0 =
        (((book.apply delta).best side).map Prod.fst).getD 0 ↔
          (book.best side).map Prod.fst = ((book.apply delta).best side).map Prod.fst :=
      fun side ↦ getD_zero_inj (fun _ ↦ h.pos_of_best) fun _ ↦ hnew.pos_of_best
    rw [quote, quote, Prod.mk.injEq]
    refine (and_congr (hinj .bid) (hinj .ask)).trans ⟨fun hboth side ↦ ?_, fun hall ↦ ?_⟩
    · cases side with
      | bid => exact hboth.1
      | ask => exact hboth.2
    · exact ⟨hall .bid, hall .ask⟩
  rw [ne_eq, hsides]
  constructor
  · intro hne
    refine ⟨_, tops_iff.2 ⟨fun heq ↦ hne fun side ↦ ?_, rfl⟩⟩
    rcases eq_or_ne side delta.side with rfl | hside
    · exact heq.symm
    · rw [best, best, levels_apply_of_ne _ _ hside]
  · rintro ⟨v, htops⟩ hall
    exact (tops_iff.1 htops).1 (hall delta.side).symm

/-- The volumes a snapshot adds. -/
def topVolume (book : OrderBook Double) : ℕ :=
  (volumeOf (book.best .bid)).toNat + (volumeOf (book.best .ask)).toNat

theorem topVolume_eq (book : OrderBook Double) (side : OrderSide) :
    book.topVolume =
      (volumeOf (book.best side)).toNat + (volumeOf (book.best side.other)).toNat := by
  cases side with
  | bid => rfl
  | ask => exact Nat.add_comm _ _

/-- **What a snapshot adds after an update that tops its side.** -/
theorem Tops.topVolume_apply {v : UInt64} (h : Tops book delta v) :
    (book.apply delta).topVolume =
      v.toNat + (volumeOf (book.best delta.side.other)).toNat := by
  rw [topVolume_eq _ delta.side, best_apply_other, (tops_iff.1 h).2]

end OrderBook

open OrderBook BookProcessor BookRun

/-! ### What a snapshot says -/

section Snapshot

variable {fl : FloatEnv} {bp : BookProcessor} {tick : MarketTick} {snap : MarketSnapshot}

/-- Volumes are numbers: a count of shares is not rounded. -/
def ExactVolumes (fl : FloatEnv) : Prop := ∀ n : UInt64, fl.ofUInt64 n = fin n.toNat

theorem toNat_add_of_lt {a b : UInt64} (h : a.toNat + b.toNat < 2 ^ 64) :
    (a + b).toNat = a.toNat + b.toNat := by
  rw [UInt64.toNat_add, Nat.mod_eq_of_lt h]

/-- **The volume of a snapshot is the sum it adds**, unless the sum wraps. -/
theorem volume_of_offered (hexact : ExactVolumes fl) (hsnap : snap ∈ bp.offered fl tick)
    (hlt : ((bp.processTick fl tick).bookOf tick.symbol.key).topVolume < 2 ^ 64) :
    snap.volume = fin ((bp.processTick fl tick).bookOf tick.symbol.key).topVolume := by
  rw [bookOf_processTick_self] at hlt ⊢
  rw [Option.mem_def, offered_eq] at hsnap
  split_ifs at hsnap
  rw [← Option.some.inj hsnap]
  refine (hexact _).trans ?_
  exact congrArg (fun n : ℕ ↦ fin (n : ℚ)) (toNat_add_of_lt hlt)

/-- The tick moves a best price, to levels with this much volume or more. -/
def BookProcessor.Exceeds (fl : FloatEnv) (bp : BookProcessor) (tick : MarketTick) (limit : ℕ) :
    Prop :=
  ∃ v, Tops (bp.bookOf tick.symbol.key) (bp.deltaOf fl tick) v ∧
    limit ≤ v.toNat +
      (volumeOf ((bp.bookOf tick.symbol.key).best (bp.sideOf fl tick).other)).toNat

variable (hprices : PricesPositive bp)
  (hattached : (bp.dbQueue.isSome || bp.signalQueue.isSome) = true) (hp : 0 < tick.price)

include hprices hattached hp

/-- **A tick exceeds a limit exactly if it offers a snapshot that does.** -/
theorem exceeds_iff {limit : ℕ} : bp.Exceeds fl tick limit ↔ (bp.offered fl tick).isSome ∧
    limit ≤ ((bp.processTick fl tick).bookOf tick.symbol.key).topVolume := by
  rw [isSome_offered_iff hprices hattached, bookOf_processTick_self,
    quote_apply_ne_iff (hprices _) hp]
  constructor
  · rintro ⟨v, htops, hle⟩
    exact ⟨⟨v, htops⟩, htops.topVolume_apply.symm ▸ hle⟩
  · rintro ⟨⟨v, htops⟩, hle⟩
    exact ⟨v, htops, htops.topVolume_apply ▸ hle⟩

end Snapshot

namespace BookRun

variable {fl : FloatEnv} {s t : BookRun} {events : List Event} {ticks : List MarketTick}
  {dbQueue signalQueue : Option SnapshotQueue}

/-! ### The offers of a run -/

theorem attached_of_run (h : StepRun.run (step fl) (init dbQueue signalQueue) events = some s) :
    (s.processor.dbQueue.isSome || s.processor.signalQueue.isSome) =
      (dbQueue.isSome || signalQueue.isSome) := by
  refine StepRun.run_invariant (P := fun s ↦
    (s.processor.dbQueue.isSome || s.processor.signalQueue.isSome) =
      (dbQueue.isSome || signalQueue.isSome)) (fun u e v hu hstep ↦ ?_) rfl h
  cases e with
  | tick tick =>
    obtain rfl := Option.some.inj hstep
    exact (u.processor.attached_processTick fl tick).trans hu
  | dbPop =>
    obtain ⟨popped, hpopped, rfl⟩ := Option.map_eq_some_iff.1 hstep
    obtain ⟨queue, hqueue, -⟩ := Option.bind_eq_some_iff.1 hpopped
    rw [← hu, hqueue]
    rfl
  | signalPop =>
    obtain ⟨popped, hpopped, rfl⟩ := Option.map_eq_some_iff.1 hstep
    obtain ⟨queue, hqueue, -⟩ := Option.bind_eq_some_iff.1 hpopped
    rw [← hu, hqueue]
    rfl

/-- **What a run offers is a matter of its ticks**, whatever the consumers did. -/
theorem offers_of_run (h : StepRun.run (step fl) (init dbQueue signalQueue) events = some s) :
    s.offers = (offering fl).outputs (fresh dbQueue signalQueue) (ticksOf events) := by
  induction events using List.reverseRecOn generalizing s with
  | nil =>
    obtain rfl := Option.some.inj h
    rfl
  | append_singleton events e ih =>
    obtain ⟨u, hu, hlast⟩ := StepRun.run_append_eq_some_iff.1 h
    obtain ⟨v, hstep, hv⟩ := StepRun.run_cons_eq_some_iff.1 hlast
    obtain rfl := Option.some.inj hv
    rw [ticksOf, List.filterMap_append]
    cases e with
    | tick tick =>
      obtain rfl := Option.some.inj hstep
      obtain ⟨hbooks, href⟩ := books_of_run hu
      show u.offers ++ _ = (offering fl).outputs _ (ticksOf events ++ [tick])
      rw [Transducer.outputs_concat, ih hu]
      refine congrArg (_ ++ Option.toList ·) (offered_congr fl tick ?_ ?_ ?_)
      · rw [book, book, hbooks]
      · rw [reference, reference, href]
      · rw [attached_of_run hu, attached_state]
    | dbPop =>
      obtain ⟨_, -, rfl⟩ := Option.map_eq_some_iff.1 hstep
      exact (ih hu).trans (by simp [ticksOf])
    | signalPop =>
      obtain ⟨_, -, rfl⟩ := Option.map_eq_some_iff.1 hstep
      exact (ih hu).trans (by simp [ticksOf])

/-! ### A writer that keeps up -/

/-- The database queue is empty and everything offered has been taken from it. -/
structure DbTaken (s : BookRun) : Prop where
  dbQueue : s.processor.dbQueue = noSnapshots
  dbTaken : s.dbTaken = s.offers

/-- One tick, with what it offers taken at once. -/
theorem DbTaken.exists_run_tick (fl : FloatEnv) (h : s.DbTaken) (tick : MarketTick) :
    ∃ events t, StepRun.run (step fl) s events = some t ∧ ticksOf events = [tick] ∧
      t.DbTaken := by
  have hdb := (queues_processTick fl tick h.dbQueue).1
  rcases hoffered : s.processor.offered fl tick with - | snap
  · rw [hoffered] at hdb
    refine ⟨[.tick tick], _, rfl, rfl, hdb, ?_⟩
    show s.dbTaken = s.offers ++ _
    rw [h.dbTaken, hoffered, Option.toList_none, List.append_nil]
  · rw [hoffered] at hdb
    refine ⟨[.tick tick, .dbPop],
      { s with
        processor := { s.processor.processTick fl tick with dbQueue := noSnapshots }
        dbTaken := s.dbTaken ++ [snap]
        offers := s.offers ++ [snap]
        changes := s.changes + if changesTop fl s.processor tick then 1 else 0 }, ?_, rfl,
      rfl, by rw [h.dbTaken]⟩
    simp only [StepRun.run_cons, StepRun.run_nil, step, Option.bind_some, Option.map_some, hoffered,
      Option.toList_some, hdb, tryPop_received]

/-- **The writer can take every snapshot at once**, whatever the signal queue does. -/
theorem DbTaken.exists_run (fl : FloatEnv) (h : s.DbTaken) (ticks : List MarketTick) :
    ∃ events t, StepRun.run (step fl) s events = some t ∧ ticksOf events = ticks ∧
      t.DbTaken :=
  exists_run_of_ticks (fun _ tick hu ↦ hu.exists_run_tick fl tick) h ticks

end BookRun

/-! ### Conversions along a run -/

theorem toInt64_natCast (overflow : Double → ℤ) {n : ℕ} (h : n < 2 ^ 63) :
    toInt64 overflow (fin n) = n := by
  have hlt : (n : ℚ) < 2 ^ 63 := by exact_mod_cast h
  have hnonneg : (0 : ℚ) ≤ n := n.cast_nonneg
  rw [toInt64, if_pos ⟨by linarith, hlt⟩, if_pos hnonneg]
  exact Int.floor_natCast n

/-- **The conversions of volumes are in range** along the ticks: those to the book are of numbers
below `2 ^ 64`; the sum taken for a snapshot is below `2 ^ 64`, and is the volume of the snapshot;
and whenever the writer takes its snapshots, it converts numbers below `2 ^ 63`, which arrive in the
rows as they are. -/
structure VolumesInRange (fl : FloatEnv) (signalQueue : Option SnapshotQueue)
    (ticks : List MarketTick) : Prop where
  casts : ∀ tick ∈ ticks, tick.volume < fin (2 ^ 64)
  sums : ∀ seen tick rest, ticks = seen ++ tick :: rest →
    let bp := (offering fl).state (fresh noSnapshots signalQueue) seen
    let top := ((bp.processTick fl tick).bookOf tick.symbol.key).topOfBook fl.sub
    ∀ snap ∈ bp.offered fl tick, top.bidVolume.toNat + top.askVolume.toNat ≤ 2 ^ 64 - 1 ∧
      snap.volume = fin ((top.bidVolume.toNat + top.askVolume.toNat : ℕ) : ℚ)
  rows : ∀ events s, ticksOf events = ticks →
    StepRun.run (step fl) (init noSnapshots signalQueue) events = some s →
    ∀ snap ∈ s.dbTaken, snap.volume < fin (2 ^ 63) ∧
      ∀ overflow, fin (DbWriter.toRow fl overflow snap).volume = snap.volume

/-- The ticks that bring a volume out of range: too large for the book, or moving a best price so
that the best levels together are too large for a row. -/
def OutOfRange (fl : FloatEnv) (bp : BookProcessor) (tick : MarketTick) : Prop :=
  ¬ tick.volume < fin (2 ^ 64) ∨ bp.Exceeds fl tick (2 ^ 63)

instance (fl : FloatEnv) (bp : BookProcessor) (tick : MarketTick) (limit : ℕ) :
    Decidable (bp.Exceeds fl tick limit) :=
  let book := bp.bookOf tick.symbol.key
  let delta := bp.deltaOf fl tick
  decidable_of_iff
    (((book.apply delta).best delta.side).map Prod.fst ≠ (book.best delta.side).map Prod.fst ∧
      limit ≤ (volumeOf ((book.apply delta).best delta.side)).toNat +
        (volumeOf (book.best (bp.sideOf fl tick).other)).toNat)
    ⟨fun h ↦ ⟨_, tops_iff.2 ⟨h.1, rfl⟩, h.2⟩, fun ⟨_, htops, hle⟩ ↦ by
      obtain ⟨hmoves, rfl⟩ := tops_iff.1 htops
      exact ⟨hmoves, hle⟩⟩

instance (fl : FloatEnv) (bp : BookProcessor) (tick : MarketTick) :
    Decidable (OutOfRange fl bp tick) :=
  inferInstanceAs (Decidable (_ ∨ _))

section Runs

variable {fl : FloatEnv} {signalQueue : Option SnapshotQueue} {ticks : List MarketTick}

theorem price_pos_of_validate {tick : MarketTick} (h : TickParser.validate tick = true) :
    0 < tick.price := by
  obtain ⟨p, hp, hprice⟩ := (TickParser.validate_iff.1 h).1
  rw [hprice]
  exact fin_pos.2 hp

theorem pricesPositive_state (hvalid : ∀ tick ∈ ticks, TickParser.validate tick = true) :
    PricesPositive ((offering fl).state (fresh noSnapshots signalQueue) ticks) := by
  refine (offering fl).state_invariant (P := PricesPositive)
    (A := fun tick ↦ TickParser.validate tick = true) (fun bp tick htick h ↦ ?_) hvalid
    (pricesPositive_fresh _ _)
  exact h.processTick (price_pos_of_validate htick)

/-- What the writer takes was offered for one of the ticks. -/
theorem exists_offered_of_mem_dbTaken {events : List Event} {s : BookRun} {snap : MarketSnapshot}
    (hprices : ∀ tick ∈ ticksOf events, 0 < tick.price)
    (h : StepRun.run (step fl) (init noSnapshots signalQueue) events = some s)
    (hsnap : snap ∈ s.dbTaken) :
    ∃ seen tick rest, ticksOf events = seen ++ tick :: rest ∧
      snap ∈ ((offering fl).state (fresh noSnapshots signalQueue) seen).offered fl tick := by
  obtain ⟨queue, pushed, -, ⟨htaken, hsub⟩, -⟩ := (exact_of_run h fun tick htick ↦
    flt_zero_iff.2 (hprices tick (mem_ticksOf.2 htick))).db
  have htaken : s.dbTaken ++ itemsOf (some queue) = pushed := htaken
  have hoffers : snap ∈ s.offers := hsub.subset (htaken ▸ List.mem_append_left _ hsnap)
  rw [offers_of_run h, Transducer.mem_outputs_iff] at hoffers
  obtain ⟨seen, tick, rest, hsplit, hmem⟩ := hoffers
  exact ⟨seen, tick, rest, hsplit, Option.mem_toList.1 hmem⟩

section Split

variable (hvalid : ∀ tick ∈ ticks, TickParser.validate tick = true) {seen rest : List MarketTick}
  {tick : MarketTick} (hsplit : ticks = seen ++ tick :: rest) {bp : BookProcessor}
  (hbp : bp = (offering fl).state (fresh noSnapshots signalQueue) seen)

include hvalid hsplit hbp

/-- **What a tick of the sequence exceeds shows in what it offers.** -/
theorem exceeds_state_iff {limit : ℕ} : bp.Exceeds fl tick limit ↔ (bp.offered fl tick).isSome ∧
    limit ≤ ((bp.processTick fl tick).bookOf tick.symbol.key).topVolume := by
  subst hsplit hbp
  refine exceeds_iff (pricesPositive_state fun t ht ↦ hvalid t (List.mem_append_left _ ht)) ?_
    (price_pos_of_validate (hvalid tick (by simp)))
  rw [attached_state]
  rfl

/-- **Volumes in range stay below the limit of a row**, since a writer that keeps up takes every
snapshot. -/
theorem not_exceeds_of_inRange (h : VolumesInRange fl signalQueue ticks) :
    ¬ bp.Exceeds fl tick (2 ^ 63) := by
  intro hexceeds
  obtain ⟨hsome, hle⟩ := (exceeds_state_iff hvalid hsplit hbp).1 hexceeds
  obtain ⟨snap, hsnap⟩ := Option.isSome_iff_exists.1 hsome
  have hvolume : snap.volume =
      fin ((bp.processTick fl tick).bookOf tick.symbol.key).topVolume := by
    subst hbp
    exact (h.sums seen tick rest hsplit snap hsnap).2
  have hstart : (init noSnapshots signalQueue).DbTaken := ⟨rfl, rfl⟩
  obtain ⟨events, s, hrun, hticks, htaken⟩ := hstart.exists_run fl ticks
  have hmem : snap ∈ s.dbTaken := by
    rw [htaken.dbTaken, offers_of_run hrun, hticks, Transducer.mem_outputs_iff]
    exact ⟨seen, tick, rest, hsplit, hbp ▸ Option.mem_toList.2 hsnap⟩
  have hrow := (h.rows events s hticks hrun snap hmem).1
  rw [hvolume, fin_lt_fin] at hrow
  have hlt : ((bp.processTick fl tick).bookOf tick.symbol.key).topVolume < 2 ^ 63 := by
    exact_mod_cast hrow
  omega

/-- **Below the limit of a row a snapshot has the sum of its volumes.** -/
theorem volume_of_not_exceeds (hexact : ExactVolumes fl) (hnot : ¬ bp.Exceeds fl tick (2 ^ 63))
    {snap : MarketSnapshot} (hsnap : snap ∈ bp.offered fl tick) :
    ((bp.processTick fl tick).bookOf tick.symbol.key).topVolume < 2 ^ 63 ∧
      snap.volume = fin ((bp.processTick fl tick).bookOf tick.symbol.key).topVolume := by
  have hlt : ((bp.processTick fl tick).bookOf tick.symbol.key).topVolume < 2 ^ 63 := by
    by_contra hge
    refine hnot ((exceeds_state_iff hvalid hsplit hbp).2 ⟨?_, not_lt.1 hge⟩)
    rw [Option.isSome_iff_exists]
    exact ⟨snap, hsnap⟩
  exact ⟨hlt, volume_of_offered hexact hsnap (by omega)⟩

end Split

/-- **When volumes stay in range.** On every sequence of ticks the parser accepts: the conversions
of volumes are in range, whatever the consumers of the snapshots do, exactly if no tick brings a
volume out of range. -/
theorem volumesInRange_iff (hexact : ExactVolumes fl) (signalQueue : Option SnapshotQueue)
    (ticks : List MarketTick) (hvalid : ∀ tick ∈ ticks, TickParser.validate tick = true) :
    VolumesInRange fl signalQueue ticks ↔
      ∀ seen tick rest, ticks = seen ++ tick :: rest →
        ¬ OutOfRange fl ((offering fl).state (fresh noSnapshots signalQueue) seen) tick := by
  constructor
  · rintro h seen tick rest hsplit (hcast | hexceeds)
    · exact hcast (h.casts tick (by rw [hsplit]; simp))
    · exact not_exceeds_of_inRange hvalid hsplit rfl h hexceeds
  · intro hnone
    have hbelow : ∀ seen tick rest, ticks = seen ++ tick :: rest →
        ¬ ((offering fl).state (fresh noSnapshots signalQueue) seen).Exceeds fl tick (2 ^ 63) :=
      fun seen tick rest hsplit hexceeds ↦ hnone seen tick rest hsplit (Or.inr hexceeds)
    refine ⟨fun tick htick ↦ ?_, fun seen tick rest hsplit snap hsnap ↦ ?_,
      fun events s hticks hrun snap hsnap ↦ ?_⟩
    · obtain ⟨seen, rest, hsplit⟩ := List.append_of_mem htick
      by_contra hcast
      exact hnone seen tick rest hsplit (Or.inl hcast)
    · obtain ⟨hlt, hvolume⟩ := volume_of_not_exceeds hvalid hsplit rfl hexact
        (hbelow seen tick rest hsplit) hsnap
      have hle : _ ≤ 2 ^ 64 - 1 := (lt_trans hlt (by norm_num : (2 : ℕ) ^ 63 < 2 ^ 64 - 1)).le
      exact ⟨hle, hvolume⟩
    · obtain ⟨seen, tick, rest, hsplit, hmem⟩ := exists_offered_of_mem_dbTaken
        (fun t ht ↦ price_pos_of_validate (hvalid t (hticks ▸ ht))) hrun hsnap
      obtain rfl := hticks
      obtain ⟨hlt, hvolume⟩ := volume_of_not_exceeds hvalid hsplit rfl hexact
        (hbelow seen tick rest hsplit) hmem
      refine ⟨?_, fun overflow ↦ ?_⟩
      · rw [hvolume, fin_lt_fin]
        exact_mod_cast hlt
      · show fin (toInt64 overflow snap.volume) = _
        rw [hvolume, toInt64_natCast overflow hlt, Int.cast_natCast]

end Runs

/-- A share bid at 100 and two asked at 110 stay in range, and the second snapshot adds them. -/
theorem volumesInRange_two_sides :
    let fl := FloatEnv.exact fun _ ↦ 0
    let ticks := [volumeOfA 100 1 1, volumeOfA 110 2 2]
    (∀ tick ∈ ticks, TickParser.validate tick = true) ∧ VolumesInRange fl none ticks ∧
      ((offering fl).outputs (fresh noSnapshots none) ticks).map MarketSnapshot.volume =
        [fin 1, fin 3] := by
  intro fl ticks
  have hvalid : ∀ tick ∈ ticks, TickParser.validate tick = true := by decide +kernel
  refine ⟨hvalid, (volumesInRange_iff (fun _ ↦ rfl) none ticks hvalid).2 ?_, by decide +kernel⟩
  rw [(offering fl).forall_state_iff (P := fun bp tick ↦ ¬ OutOfRange fl bp tick)]
  decide +kernel

/-- **Volumes do leave their range.** An infinite volume validates and is converted; and `2 ^ 63`
shares are a bid of the book, and too many for a row. -/
theorem volumes_leave_range :
    (¬ ∀ ticks : List MarketTick, (∀ tick ∈ ticks, TickParser.validate tick = true) →
        VolumesInRange (FloatEnv.exact fun _ ↦ 0) none ticks) ∧
      ¬ VolumesInRange (FloatEnv.exact fun _ ↦ 0) none [volumeOfA 100 (2 ^ 63) 1] := by
  constructor
  · intro hall
    have hcast := (hall [.make [65] (fin 100) posInf 0 1] (by decide +kernel)).casts _
      List.mem_cons_self
    exact absurd hcast (by decide +kernel)
  · intro hrange
    obtain ⟨s, hs⟩ := Option.isSome_iff_exists.1 (by decide +kernel :
      (StepRun.run (step (FloatEnv.exact fun _ ↦ 0)) (init noSnapshots none)
        [.tick (volumeOfA 100 (2 ^ 63) 1), .dbPop]).isSome = true)
    have hvolumes : s.dbTaken.map MarketSnapshot.volume = [fin (2 ^ 63)] :=
      StepRun.eq_of_run_map (fun s ↦ s.dbTaken.map MarketSnapshot.volume) hs (by decide +kernel)
    obtain ⟨snap, hsnap, hvolume⟩ := List.mem_map.1 (hvolumes ▸ List.mem_cons_self)
    have hrow := (hrange.rows _ s rfl hs snap hsnap).1
    rw [hvolume] at hrow
    exact absurd hrow (lt_irrefl _)

end Mdp
