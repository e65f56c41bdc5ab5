import MarketDataProcessor.Book.OrderBook
import MarketDataProcessor.Foundations.History

/-!
# Reading a book back from its deltas

A book as a function of the deltas applied to it since it was constructed or cleared. A delta counts
when the guard lets it through **in the book it meets**, which the deltas before it made
(`accepted`); a level is then what the last delta that counts said about its side and price. The
two maps of the source are this function (`find?_replay`).

The four read paths are compared with the maps and so with each other: `snapshot()` lists them,
`bid_levels()` and `ask_levels()` count them, `best_bid()`, `best_ask()` and `top_of_book()` report
the first entries of the snapshot.

## From one delta to all of them

`find?_levels_apply` answers for one delta what a later lookup at a side and price finds: the
delta's own volume, nothing, or what was there, by whether the delta is about that level and whether
it is refused. `find?_replay` is the induction over the deltas, from the end, so that the book a
delta meets is at hand when its refusal is judged. A book that has no levels to begin with
contributes nothing, however it came to have none (`OrderBook.IsEmpty`).

The rest compares views. Order and uniqueness of the lists are properties of the maps, reversed for
the bids; lengths are those of the maps; and the heads are the best prices, the zero that stands for
an empty side included. `replay_and_snapshot_correct` collects the four read paths in one statement.
-/

namespace Mdp

namespace OrderBook

open History

variable {P : Type*} [LinearOrder P]

/-- The delta is about this side and price. -/
def isAbout (side : OrderSide) (price : P) (delta : BookDelta P) : Bool :=
  decide (delta.side = side ∧ delta.price = price)

/-- The book after a sequence of `apply` calls. -/
def replay (book : OrderBook P) (deltas : List (BookDelta P)) : OrderBook P :=
  deltas.foldl apply book

/-- The deltas the guard does not refuse in the book they meet. -/
def accepted (book : OrderBook P) (deltas : List (BookDelta P)) : List (BookDelta P) :=
  filterAlong (fun seen delta ↦ !(book.replay seen).refuses delta) deltas

/-- A book without levels, as the constructor and `clear` leave it. -/
def Pristine (book : OrderBook P) : Prop :=
  (∃ symbol, book = new symbol) ∨ ∃ used : OrderBook P, book = used.clear

theorem replay_concat (book : OrderBook P) (deltas : List (BookDelta P)) (delta : BookDelta P) :
    book.replay (deltas ++ [delta]) = (book.replay deltas).apply delta :=
  List.foldl_append

/-! ### The maps -/

theorem Pristine.isEmpty {book : OrderBook P} (h : book.Pristine) : book.IsEmpty := by
  rcases h with ⟨symbol, rfl⟩ | ⟨used, rfl⟩
  · exact isEmpty_new symbol
  · exact isEmpty_clear used

theorem IsEmpty.find?_levels {book : OrderBook P} (h : book.IsEmpty) (side : OrderSide)
    (price : P) : (book.levels side).find? price = none := by
  have hnil : (book.levels side).entries = [] := by
    cases side with
    | bid => exact h.1
    | ask => exact h.2
  rw [OrderedMap.find?, hnil]
  rfl

/-- **One delta, at one side and price**: it sets or removes what it is about, unless refused. -/
theorem find?_levels_apply (book : OrderBook P) (delta : BookDelta P) (side : OrderSide)
    (price : P) :
    ((book.apply delta).levels side).find? price =
      if !book.refuses delta && isAbout side price delta then
        if 0 < delta.volume then some delta.volume else none
      else (book.levels side).find? price := by
  have habout : isAbout side price delta = decide (delta.side = side ∧ delta.price = price) := rfl
  rcases book.apply_cases delta with ⟨hr, hl⟩ | ⟨hr, hv, hl⟩ | ⟨hv, hl⟩
  · rw [hl, hr]
    rfl
  · rw [hl, hr, habout, if_pos hv]
    by_cases hside : delta.side = side
    · subst hside
      rw [Function.update_self, OrderedMap.find?_insert]
      simp [eq_comm]
    · rw [Function.update_of_ne (Ne.symm hside)]
      simp [hside]
  · have hr : book.refuses delta = false :=
      Bool.eq_false_iff.2 fun hr ↦ absurd (hv ▸ (refuses_iff.1 hr).1) (by decide)
    rw [hl, hr, habout, hv, if_neg (by decide : ¬ (0 : UInt64) < 0)]
    by_cases hside : delta.side = side
    · subst hside
      rw [Function.update_self, OrderedMap.find?_erase]
      simp [eq_comm]
    · rw [Function.update_of_ne (Ne.symm hside)]
      simp [hside]

/-- **A level is what the last accepted delta about it said.** -/
theorem find?_replay {book : OrderBook P} (h : book.IsEmpty) (deltas : List (BookDelta P))
    (side : OrderSide) (price : P) (volume : UInt64) :
    ((book.replay deltas).levels side).find? price = some volume ↔
      ∃ delta ∈ lastBy (isAbout side price) (book.accepted deltas),
        delta.volume = volume ∧ 0 < volume := by
  induction deltas using List.reverseRecOn with
  | nil =>
    show (book.levels side).find? price = some volume ↔ _
    rw [h.find?_levels]
    simp [accepted]
  | append_singleton deltas delta ih =>
    rw [replay_concat, find?_levels_apply, accepted, filterAlong_concat]
    by_cases hcounts : (!(book.replay deltas).refuses delta && isAbout side price delta) = true
    · -- it is the last one from here on
      obtain ⟨haccept, habout⟩ := Bool.and_eq_true_iff.1 hcounts
      rw [if_pos hcounts, if_pos haccept, lastBy_concat_of_pos habout]
      by_cases hv : 0 < delta.volume
      · rw [if_pos hv, Option.some.injEq]
        exact ⟨fun heq ↦ ⟨delta, rfl, heq, heq ▸ hv⟩,
          fun ⟨d, hd, heq, _⟩ ↦ by rw [← heq, Option.mem_some_iff.1 hd]⟩
      · rw [if_neg hv]
        refine ⟨fun heq ↦ by simp at heq, fun ⟨d, hd, heq, hpos⟩ ↦ ?_⟩
        rw [← heq, ← Option.mem_some_iff.1 hd] at hpos
        exact absurd hpos hv
    · rw [if_neg hcounts, ih]
      split_ifs with haccept
      · have habout : ¬ isAbout side price delta = true := fun habout ↦
          hcounts (Bool.and_eq_true_iff.2 ⟨haccept, habout⟩)
        rw [lastBy_concat_of_neg habout]
        rfl
      · rw [List.append_nil]
        rfl

/-! ### The snapshot -/

variable (book : OrderBook P)

theorem mem_snapshot_bids {level : PriceLevel P} :
    level ∈ book.snapshot.bids ↔ (book.levels .bid).find? level.price = some level.volume := by
  rw [levels_bid, ← OrderedMap.mem_entries_iff, snapshot, List.mem_map]
  refine ⟨fun ⟨e, he, heq⟩ ↦ heq ▸ List.mem_reverse.1 he, fun h ↦ ⟨_, List.mem_reverse.2 h, rfl⟩⟩

theorem mem_snapshot_asks {level : PriceLevel P} :
    level ∈ book.snapshot.asks ↔ (book.levels .ask).find? level.price = some level.volume := by
  rw [levels_ask, ← OrderedMap.mem_entries_iff, snapshot, List.mem_map]
  exact ⟨fun ⟨e, he, heq⟩ ↦ heq ▸ he, fun h ↦ ⟨_, h, rfl⟩⟩

theorem snapshot_bids_descending : book.snapshot.bids.Pairwise fun a b ↦ b.price < a.price := by
  rw [snapshot, List.pairwise_map, List.pairwise_reverse]
  exact book.bids.ascending

theorem snapshot_asks_ascending : book.snapshot.asks.Pairwise fun a b ↦ a.price < b.price := by
  rw [snapshot, List.pairwise_map]
  exact book.asks.ascending

theorem length_snapshot_bids : book.snapshot.bids.length = book.bidLevels := by
  rw [snapshot, List.length_map, List.length_reverse]
  rfl

theorem length_snapshot_asks : book.snapshot.asks.length = book.askLevels := by
  rw [snapshot, List.length_map]
  rfl

variable [Zero P] (sub : P → P → P)

/-- **The first bid of the snapshot is the best bid**, to all three read paths. -/
theorem head_snapshot_bids {level : PriceLevel P} (h : level ∈ book.snapshot.bids.head?) :
    book.bestBid = level.price ∧ (book.topOfBook sub).bestBid = level.price ∧
      (book.topOfBook sub).bidVolume = level.volume := by
  rw [snapshot, Option.mem_def, List.head?_map, List.head?_reverse, Option.map_eq_some_iff] at h
  obtain ⟨e, hlast, rfl⟩ := h
  have hlast' : book.bids.last? = some e := hlast
  refine ⟨bestBid_of_last? hlast', bestBid_of_last? hlast', ?_⟩
  rw [topOfBook, hlast', Option.map_some, Option.getD_some]

/-- **The first ask of the snapshot is the best ask**, to all three read paths. -/
theorem head_snapshot_asks {level : PriceLevel P} (h : level ∈ book.snapshot.asks.head?) :
    book.bestAsk = level.price ∧ (book.topOfBook sub).bestAsk = level.price ∧
      (book.topOfBook sub).askVolume = level.volume := by
  rw [snapshot, Option.mem_def, List.head?_map, Option.map_eq_some_iff] at h
  obtain ⟨e, hfirst, rfl⟩ := h
  have hfirst' : book.asks.first? = some e := hfirst
  refine ⟨bestAsk_of_first? hfirst', bestAsk_of_first? hfirst', ?_⟩
  rw [topOfBook, hfirst', Option.map_some, Option.getD_some]

/-- **Replay and snapshot correctness.** After any sequence of `apply` calls on a constructed or
cleared book: a side holds a volume at a price exactly when the last accepted delta for that side
and price has this volume and it is positive; the snapshot lists exactly these levels, bids strictly
descending and asks strictly ascending; its lengths are `bid_levels()` and `ask_levels()`; and its
first entries are the best prices, with the volumes `top_of_book()` reports. -/
theorem replay_and_snapshot_correct {book : OrderBook P} (h : book.Pristine)
    (deltas : List (BookDelta P)) :
    let after := book.replay deltas
    let held := fun side price volume ↦
      ∃ delta ∈ lastBy (isAbout side price) (book.accepted deltas),
        delta.volume = volume ∧ 0 < volume
    (∀ side price volume,
        (after.levels side).find? price = some volume ↔ held side price volume) ∧
      (∀ level, level ∈ after.snapshot.bids ↔ held .bid level.price level.volume) ∧
      (∀ level, level ∈ after.snapshot.asks ↔ held .ask level.price level.volume) ∧
      (after.snapshot.bids.Pairwise fun a b ↦ b.price < a.price) ∧
      (after.snapshot.asks.Pairwise fun a b ↦ a.price < b.price) ∧
      after.snapshot.bids.length = after.bidLevels ∧
      after.snapshot.asks.length = after.askLevels ∧
      (∀ level ∈ after.snapshot.bids.head?, after.bestBid = level.price ∧
        (after.topOfBook sub).bestBid = level.price ∧
        (after.topOfBook sub).bidVolume = level.volume) ∧
      ∀ level ∈ after.snapshot.asks.head?, after.bestAsk = level.price ∧
        (after.topOfBook sub).bestAsk = level.price ∧
        (after.topOfBook sub).askVolume = level.volume := by
  intro after held
  refine ⟨find?_replay h.isEmpty deltas, fun level ↦ ?_, fun level ↦ ?_,
    after.snapshot_bids_descending, after.snapshot_asks_ascending, after.length_snapshot_bids,
    after.length_snapshot_asks, fun level ↦ after.head_snapshot_bids sub,
    fun level ↦ after.head_snapshot_asks sub⟩
  · rw [mem_snapshot_bids]
    exact find?_replay h.isEmpty deltas .bid level.price level.volume
  · rw [mem_snapshot_asks]
    exact find?_replay h.isEmpty deltas .ask level.price level.volume

/-- A bid at 3, an ask at 2 that would cross it, then a removal of the bid: the book is empty, and
the ask is not among the accepted deltas. -/
theorem replay_and_snapshot_correct_crossed :
    let delta : OrderSide → ℕ → UInt64 → BookDelta ℕ := fun side price volume ↦
      ⟨Vector.replicate 8 65, side, price, volume, 0⟩
    let deltas := [delta .bid 3 1, delta .ask 2 1, delta .bid 3 0]
    ((new [65] : OrderBook ℕ).accepted deltas).map BookDelta.side = [.bid, .bid] ∧
      ((new [65] : OrderBook ℕ).replay deltas).snapshot.asks = [] ∧
      ∀ level, level ∉ ((new [65] : OrderBook ℕ).replay deltas).snapshot.bids := by
  intro delta deltas
  have hnew : (new [65] : OrderBook ℕ).Pristine := Or.inl ⟨[65], rfl⟩
  have hspec := replay_and_snapshot_correct (fun a b ↦ a - b) hnew deltas
  refine ⟨by decide +kernel, by decide +kernel, fun level hlevel ↦ ?_⟩
  have hlen := hspec.2.2.2.2.2.1
  rw [List.length_eq_zero_iff.1 (hlen.trans (by decide +kernel))] at hlevel
  exact absurd hlevel List.not_mem_nil

end OrderBook

end Mdp
