import MarketDataProcessor.Book.Commute

/-!
# What a book knows of prices and sides

`apply` compares prices and never computes with them, and it treats the two sides alike up to the
direction of the comparison. So a book cannot tell a sequence of deltas from another one in which
prices and sides are renamed consistently. `Relabelling` is what consistent means: sides that are
opposite stay so, and a price crosses an opposite level exactly if its new name crosses the new name
of that level.

`Related` is the simulation between a book and its renamed twin, kept by every operation
(`Related.step`). Two renamings give the results: a strictly increasing function of the prices, a
change of unit or of tick size, and the exchange of bids and asks with the order of the prices
turned round (`relabelled_run`).

## One simulation for both results

A `Relabelling` is only asked for what the operations use: sides opposite to each other stay so, and
crossing is preserved and reflected. From that the guard gives the same answer
(`Related.refuses_eq`), lookups find the same volume under the new name (`Related.find?_eq`), and a
removal counts the same (`Related.removedBy_eq`). Injectivity of the renaming is not assumed, it
follows: a price crosses another exactly if their new names do.

Order enters only when the twins are read. `Relabelling.rescale` keeps the order of the entries, so
snapshots correspond entry by entry; `Relabelling.mirror` turns it round, so the bids of one book
are the asks of the other in the same order, best first (`Related.entries_rescale`,
`Related.entries_mirror`).
-/

namespace Mdp

namespace OrderSide

/-- The other side. -/
def opposite : OrderSide → OrderSide
  | bid => ask
  | ask => bid

@[simp] theorem opposite_opposite (side : OrderSide) : side.opposite.opposite = side := by
  cases side <;> rfl

theorem opposite_ne (side : OrderSide) : side.opposite ≠ side := by
  cases side <;> decide

end OrderSide

namespace OrderBook

variable {P Q : Type*} [LinearOrder P] [LinearOrder Q]

/-- A price of this side would trade through a level at `q` of the other side. -/
def Crosses : OrderSide → P → P → Prop
  | .bid, p, q => q < p
  | .ask, p, q => p < q

/-- **The guard, for both sides at once.** -/
theorem refuses_iff_crosses {book : OrderBook P} {delta : BookDelta P} :
    book.refuses delta = true ↔ 0 < delta.volume ∧
      ∃ level ∈ (book.levels delta.side.opposite).entries,
        Crosses delta.side delta.price level.1 := by
  rw [refuses_iff_exists]
  cases delta.side with
  | bid => simp [OrderSide.opposite, Crosses]
  | ask => simp [OrderSide.opposite, Crosses]

/-! ### Renaming prices and sides -/

/-- A consistent renaming. -/
structure Relabelling (P Q : Type*) [LinearOrder P] [LinearOrder Q] where
  side : OrderSide → OrderSide
  price : P → Q
  /-- Opposite sides stay opposite. -/
  side_opposite : ∀ s : OrderSide, side s.opposite = (side s).opposite
  /-- Crossing is kept and reflected. -/
  crosses_iff : ∀ s p q, Crosses (side s) (price p) (price q) ↔ Crosses s p q

/-- A strictly increasing change of the prices. -/
def Relabelling.rescale (f : P → Q) (hf : StrictMono f) : Relabelling P Q where
  side := id
  price := f
  side_opposite _ := rfl
  crosses_iff s p q := by cases s <;> exact hf.lt_iff_lt

/-- Bids and asks exchanged, and the order of the prices turned round. -/
def Relabelling.mirror : Relabelling P Pᵒᵈ where
  side := OrderSide.opposite
  price := OrderDual.toDual
  side_opposite _ := rfl
  crosses_iff s p q := by cases s <;> exact OrderDual.toDual_lt_toDual

namespace Relabelling

variable (r : Relabelling P Q)

theorem side_injective : Function.Injective r.side := by
  intro s s' h
  by_contra hne
  have hopposite : s' = s.opposite := by cases s <;> cases s' <;> simp_all [OrderSide.opposite]
  rw [hopposite, r.side_opposite] at h
  exact OrderSide.opposite_ne _ h.symm

theorem price_injective : Function.Injective r.price := by
  intro p q h
  have hnot : ∀ s, ¬ Crosses (r.side s) (r.price p) (r.price q) := fun s hcross ↦ by
    rw [h] at hcross
    cases hs : r.side s <;> rw [hs] at hcross <;> exact lt_irrefl _ hcross
  have hlt : ¬ q < p := fun hlt ↦ hnot .bid ((r.crosses_iff .bid p q).2 hlt)
  have hgt : ¬ p < q := fun hgt ↦ hnot .ask ((r.crosses_iff .ask p q).2 hgt)
  exact le_antisymm (not_lt.1 hlt) (not_lt.1 hgt)

/-- The renamed delta. -/
def delta (d : BookDelta P) : BookDelta Q where
  symbol := d.symbol
  side := r.side d.side
  price := r.price d.price
  volume := d.volume
  timestampNs := d.timestampNs

/-- The renamed operation. -/
def op : Op P → Op Q
  | .apply d => .apply (r.delta d)
  | .clear => .clear

end Relabelling

/-! ### The simulation -/

/-- The book and its renamed twin: the levels are renamed, all else is the same. -/
structure Related (r : Relabelling P Q) (book : OrderBook P) (twin : OrderBook Q) : Prop where
  symbol : twin.symbol = book.symbol
  sequence : twin.sequence = book.sequence
  updatesApplied : twin.updatesApplied = book.updatesApplied
  levelsRemoved : twin.levelsRemoved = book.levelsRemoved
  levels : ∀ s q v, (q, v) ∈ (twin.levels (r.side s)).entries ↔
    ∃ p, r.price p = q ∧ (p, v) ∈ (book.levels s).entries

/-- A book without levels has none on either side. -/
theorem not_mem_levels_of_pristine {book : OrderBook P} (h : book.Pristine) (side : OrderSide)
    (p : P) (v : UInt64) : (p, v) ∉ (book.levels side).entries := by
  rw [OrderedMap.mem_entries_iff, h.isEmpty.find?_levels]
  simp

/-- Books without levels are twins in their levels. -/
theorem levels_iff_of_pristine (r : Relabelling P Q) {book : OrderBook P} {twin : OrderBook Q}
    (h : book.Pristine) (h' : twin.Pristine) (s : OrderSide) (q : Q) (v : UInt64) :
    (q, v) ∈ (twin.levels (r.side s)).entries ↔
      ∃ p, r.price p = q ∧ (p, v) ∈ (book.levels s).entries :=
  iff_of_false (not_mem_levels_of_pristine h' _ q v) fun ⟨p, _, hmem⟩ ↦
    not_mem_levels_of_pristine h s p v hmem

theorem related_new (r : Relabelling P Q) (symbol : List UInt8) :
    Related r (new symbol) (new symbol) :=
  ⟨rfl, rfl, rfl, rfl, levels_iff_of_pristine r (Or.inl ⟨symbol, rfl⟩) (Or.inl ⟨symbol, rfl⟩)⟩

namespace Related

variable {r : Relabelling P Q} {book : OrderBook P} {twin : OrderBook Q}

/-- The twin refuses what the book refuses. -/
theorem refuses_eq (h : Related r book twin) (d : BookDelta P) :
    twin.refuses (r.delta d) = book.refuses d := by
  rw [Bool.eq_iff_iff, refuses_iff_crosses, refuses_iff_crosses]
  refine and_congr_right fun _ ↦ ?_
  show (∃ level ∈ (twin.levels (r.side d.side).opposite).entries,
    Crosses (r.side d.side) (r.price d.price) level.1) ↔ _
  rw [← r.side_opposite]
  constructor
  · rintro ⟨⟨q, v⟩, hmem, hcross⟩
    obtain ⟨p, rfl, hp⟩ := (h.levels _ q v).1 hmem
    exact ⟨(p, v), hp, (r.crosses_iff _ _ _).1 hcross⟩
  · rintro ⟨⟨p, v⟩, hmem, hcross⟩
    exact ⟨(r.price p, v), (h.levels _ _ v).2 ⟨p, rfl, hmem⟩, (r.crosses_iff _ _ _).2 hcross⟩

/-- Lookup in the twin, under a new name. -/
theorem find?_eq (h : Related r book twin) (s : OrderSide) (p : P) :
    (twin.levels (r.side s)).find? (r.price p) = (book.levels s).find? p := by
  refine Option.ext fun v ↦ ?_
  rw [← OrderedMap.mem_entries_iff, ← OrderedMap.mem_entries_iff, h.levels]
  exact ⟨fun ⟨p', hp, hmem⟩ ↦ r.price_injective hp ▸ hmem, fun hmem ↦ ⟨p, rfl, hmem⟩⟩

/-- Both count the same removals. -/
theorem removedBy_eq (h : Related r book twin) (d : BookDelta P) :
    twin.removedBy (r.delta d) = book.removedBy d := by
  show (if d.volume = 0 then
    erasedLevels (twin.levels (r.side d.side)) (r.price d.price) else 0) = _
  rw [erasedLevels, h.find?_eq]
  rfl

/-- **An update and its renamed twin do the same.** -/
theorem apply (h : Related r book twin) (d : BookDelta P) :
    Related r (book.apply d) (twin.apply (r.delta d)) := by
  obtain ⟨hsymbol, hsequence, hupdates, hremoved⟩ := counters_apply book d
  obtain ⟨hsymbol', hsequence', hupdates', hremoved'⟩ := counters_apply twin (r.delta d)
  refine ⟨?_, ?_, ?_, ?_, fun s q v ↦ ?_⟩
  · rw [hsymbol, hsymbol', h.symbol]
  · rw [hsequence, hsequence', h.sequence]
  · rw [hupdates, hupdates', h.updatesApplied]
  · rw [hremoved, hremoved', h.levelsRemoved, h.removedBy_eq]
  · have habout : ∀ p, isAbout (r.side s) (r.price p) (r.delta d) = isAbout s p d := fun p ↦ by
      rw [isAbout, isAbout, decide_eq_decide]
      exact and_congr r.side_injective.eq_iff r.price_injective.eq_iff
    -- a level of the twin at a price without a name stays as it was
    have hrange : ∀ q, (∀ p, r.price p ≠ q) → isAbout (r.side s) q (r.delta d) = false :=
      fun q hq ↦ decide_eq_false fun hcon ↦ hq d.price hcon.2
    rw [OrderedMap.mem_entries_iff, find?_levels_apply, h.refuses_eq]
    by_cases hq : ∃ p, r.price p = q
    · obtain ⟨p, rfl⟩ := hq
      rw [habout, h.find?_eq]
      have hp : (∃ p', r.price p' = r.price p ∧ (p', v) ∈ ((book.apply d).levels s).entries) ↔
          (p, v) ∈ ((book.apply d).levels s).entries := by
        constructor
        · rintro ⟨p', heq, hmem⟩
          exact r.price_injective heq ▸ hmem
        · exact fun hmem ↦ ⟨p, rfl, hmem⟩
      rw [hp, OrderedMap.mem_entries_iff, find?_levels_apply]
      rfl
    · have hnone : ∀ p, r.price p ≠ q := fun p hp ↦ hq ⟨p, hp⟩
      rw [hrange q hnone, Bool.and_false, if_neg Bool.false_ne_true, ← OrderedMap.mem_entries_iff,
        h.levels]
      constructor
      · rintro ⟨p, hp, -⟩
        exact absurd hp (hnone p)
      · rintro ⟨p, hp, -⟩
        exact absurd hp (hnone p)

theorem clear (h : Related r book twin) : Related r book.clear twin.clear :=
  ⟨h.symbol, rfl, rfl, rfl, levels_iff_of_pristine r (Or.inr ⟨book, rfl⟩) (Or.inr ⟨twin, rfl⟩)⟩

/-- **Every operation keeps the twins related.** -/
theorem step (h : Related r book twin) (op : Op P) :
    Related r (book.step op) (twin.step (r.op op)) := by
  cases op with
  | apply d => exact h.apply d
  | clear => exact h.clear

end Related

/-- **Whole runs are renamed.** -/
theorem related_of_run (r : Relabelling P Q) (symbol : List UInt8) (ops : List (Op P)) :
    Related r (ops.foldl step (new symbol)) ((ops.map r.op).foldl step (new symbol)) := by
  induction ops using List.reverseRecOn with
  | nil => exact related_new r symbol
  | append_singleton ops op ih =>
    rw [List.map_append, List.foldl_append, List.foldl_append]
    exact ih.step op

/-! ### What the twins report -/

/-- Two ascending lists of entries with the same members are the same. -/
theorem entries_eq_of_mem_iff {m : OrderedMap Q UInt64} {l : List (Q × UInt64)}
    (hl : l.Pairwise fun a b ↦ a.1 < b.1) (h : ∀ e, e ∈ m.entries ↔ e ∈ l) : m.entries = l :=
  congrArg OrderedMap.entries (OrderedMap.ext_find? (n := ⟨l, hl⟩) fun k ↦ Option.ext fun v ↦ by
    rw [← OrderedMap.mem_entries_iff, ← OrderedMap.mem_entries_iff]
    exact h (k, v))

/-- Rescaled prices, entry by entry. -/
theorem Related.entries_rescale {f : P → Q} {hf : StrictMono f} {book : OrderBook P}
    {twin : OrderBook Q} (h : Related (.rescale f hf) book twin) (s : OrderSide) :
    (twin.levels s).entries = (book.levels s).entries.map fun level ↦ (f level.1, level.2) := by
  refine entries_eq_of_mem_iff (List.pairwise_map.2 ?_) fun e ↦ ?_
  · exact (book.levels s).ascending.imp fun hlt ↦ hf hlt
  · obtain ⟨q, v⟩ := e
    rw [List.mem_map]
    refine (h.levels s q v).trans ⟨fun ⟨p, hp, hmem⟩ ↦ ⟨(p, v), hmem, Prod.ext hp rfl⟩, ?_⟩
    rintro ⟨⟨p, w⟩, hmem, heq⟩
    obtain ⟨rfl, rfl⟩ := Prod.mk.inj heq
    exact ⟨p, rfl, hmem⟩

/-- Mirrored prices, entry by entry: the other side, backwards. -/
theorem Related.entries_mirror {book : OrderBook P} {twin : OrderBook Pᵒᵈ}
    (h : Related .mirror book twin) (s : OrderSide) :
    (twin.levels s.opposite).entries =
      (book.levels s).entries.reverse.map fun level ↦ (OrderDual.toDual level.1, level.2) := by
  refine entries_eq_of_mem_iff (List.pairwise_map.2 (List.pairwise_reverse.2 ?_)) fun e ↦ ?_
  · exact (book.levels s).ascending.imp fun hlt ↦ OrderDual.toDual_lt_toDual.2 hlt
  · obtain ⟨q, v⟩ := e
    rw [List.mem_map]
    refine (h.levels s q v).trans ⟨fun ⟨p, hp, hmem⟩ ↦
      ⟨(p, v), List.mem_reverse.2 hmem, Prod.ext hp rfl⟩, ?_⟩
    rintro ⟨⟨p, w⟩, hmem, heq⟩
    obtain ⟨rfl, rfl⟩ := Prod.mk.inj heq
    exact ⟨p, rfl, List.mem_reverse.1 hmem⟩

/-- **A book knows prices by their order only, and the sides by their opposition.** For every
sequence of `apply` and `clear` calls on a new book. With all prices put through a strictly
increasing function: the snapshot lists the same levels under the new prices, side by side, and the
counters are the same. With bids and asks exchanged and the order of the prices turned round: the
snapshot lists as asks what it listed as bids and as bids what it listed as asks, in the same order,
with the same counters. -/
theorem relabelled_run (symbol : List UInt8) (ops : List (Op P)) :
    let book := ops.foldl step (new symbol)
    (∀ {Q : Type*} [LinearOrder Q] (f : P → Q) (hf : StrictMono f),
        let twin := (ops.map (Relabelling.rescale f hf).op).foldl step (new symbol)
        twin.snapshot.bids = book.snapshot.bids.map (fun level ↦ ⟨f level.price, level.volume⟩) ∧
          twin.snapshot.asks = book.snapshot.asks.map (fun level ↦ ⟨f level.price, level.volume⟩) ∧
          twin.sequence = book.sequence ∧ twin.updatesApplied = book.updatesApplied ∧
          twin.levelsRemoved = book.levelsRemoved) ∧
      let twin := (ops.map Relabelling.mirror.op).foldl step (new symbol)
      twin.snapshot.asks =
          book.snapshot.bids.map (fun level ↦ ⟨OrderDual.toDual level.price, level.volume⟩) ∧
        twin.snapshot.bids =
          book.snapshot.asks.map (fun level ↦ ⟨OrderDual.toDual level.price, level.volume⟩) ∧
        twin.sequence = book.sequence ∧ twin.updatesApplied = book.updatesApplied ∧
        twin.levelsRemoved = book.levelsRemoved := by
  intro book
  constructor
  · intro Q _ f hf twin
    have h : Related (.rescale f hf) book twin := related_of_run _ symbol ops
    refine ⟨?_, ?_, h.sequence, h.updatesApplied, h.levelsRemoved⟩
    · show twin.bids.entries.reverse.map _ = _
      rw [show twin.bids.entries = _ from h.entries_rescale .bid]
      simp [snapshot]
    · show twin.asks.entries.map _ = _
      rw [show twin.asks.entries = _ from h.entries_rescale .ask]
      simp [snapshot]
  · intro twin
    have h : Related .mirror book twin := related_of_run _ symbol ops
    refine ⟨?_, ?_, h.sequence, h.updatesApplied, h.levelsRemoved⟩
    · show twin.asks.entries.map _ = _
      rw [show twin.asks.entries = _ from h.entries_mirror .bid]
      simp [snapshot]
    · show twin.bids.entries.reverse.map _ = _
      rw [show twin.bids.entries = _ from h.entries_mirror .ask]
      simp [snapshot]

/-- Prices in cents. -/
theorem relabelled_run_cents :
    let delta : OrderSide → ℕ → BookDelta ℕ := fun side price ↦
      ⟨(MarketTick.shareOfA 1).symbol, side, price, 5, 0⟩
    let ops : List (Op ℕ) := [.apply (delta .bid 3), .apply (delta .ask 4), .apply (delta .ask 2)]
    let cents := Relabelling.rescale (fun price : ℕ ↦ 100 * price)
      fun _ _ h ↦ Nat.mul_lt_mul_of_pos_left h (by decide)
    ((ops.map cents.op).foldl step (new [65])).snapshot.bids = [⟨300, 5⟩] := by
  intro delta ops cents
  exact ((relabelled_run [65] ops).1 _ _).1.trans (by decide)

end OrderBook

end Mdp
