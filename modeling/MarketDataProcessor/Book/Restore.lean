import MarketDataProcessor.Book.Commute
import MarketDataProcessor.Book.RefusedUpdates

/-!
# A snapshot is enough to rebuild the book

`snapshot()` lists every level of a book. Applied as updates to a book without levels, in whatever
order, the list makes the same levels again: no update of it is refused, since the levels of a
reachable book do not cross, and no two of them are about the same level. So nothing a reader of the
levels could see is lost between a book and its snapshot.

## What the round trip rests on

* `Safe.uncrossed`: in a reachable book no bid is above an ask and every level has volume, so the
  updates of its snapshot are `Uncrossed`. That is the invariant of the order book, not a fact about
  snapshots.
* An uncrossed sequence is accepted whole by a book without levels, and it has one update for each
  level, so the order of the updates does not matter (`Safe.levels_restored`). This is where the
  module `Commute` is used.

The counters are not restored: the new book has counted one update for each level and removed none,
which `snapshot_restores` says.
-/

namespace Mdp

namespace OrderBook

open History

variable {P : Type*} [LinearOrder P]

/-- The update that sets a level. -/
def setLevel (symbol : Symbol) (side : OrderSide) (level : PriceLevel P) : BookDelta P where
  symbol
  side
  price := level.price
  volume := level.volume
  timestampNs := 0

/-- The updates that set the levels a snapshot lists. -/
def deltasOf (snap : BookSnapshot P) : List (BookDelta P) :=
  snap.bids.map (setLevel snap.symbol .bid) ++ snap.asks.map (setLevel snap.symbol .ask)

variable {book restored : OrderBook P} {deltas : List (BookDelta P)}

/-- The updates of a snapshot are about the levels of its book. -/
theorem mem_deltasOf_iff {delta : BookDelta P} :
    delta ∈ deltasOf book.snapshot ↔
      delta = setLevel book.snapshot.symbol delta.side ⟨delta.price, delta.volume⟩ ∧
        (book.levels delta.side).find? delta.price = some delta.volume := by
  rw [deltasOf, List.mem_append, List.mem_map, List.mem_map]
  constructor
  · rintro (⟨level, hlevel, rfl⟩ | ⟨level, hlevel, rfl⟩)
    · exact ⟨rfl, (mem_snapshot_bids book).1 hlevel⟩
    · exact ⟨rfl, (mem_snapshot_asks book).1 hlevel⟩
  · rintro ⟨heq, hfind⟩
    cases hside : delta.side with
    | bid =>
      rw [hside] at heq hfind
      exact Or.inl ⟨⟨delta.price, delta.volume⟩, (mem_snapshot_bids book).2 hfind, heq.symm⟩
    | ask =>
      rw [hside] at heq hfind
      exact Or.inr ⟨⟨delta.price, delta.volume⟩, (mem_snapshot_asks book).2 hfind, heq.symm⟩

/-- **The levels of a safe book do not cross.** -/
theorem Safe.uncrossed (h : book.Safe) (hperm : deltas.Perm (deltasOf book.snapshot)) :
    Uncrossed deltas where
  volume d hd := by
    have hfind := (mem_deltasOf_iff.1 (hperm.mem_iff.1 hd)).2
    exact h.volume_pos d.side (d.price, d.volume) (OrderedMap.mem_entries_iff.2 hfind)
  le d hd e he hbid hask := by
    have hd' := (mem_deltasOf_iff.1 (hperm.mem_iff.1 hd)).2
    have he' := (mem_deltasOf_iff.1 (hperm.mem_iff.1 he)).2
    rw [hbid] at hd'
    rw [hask] at he'
    exact h.noCross _ (OrderedMap.mem_entries_iff.2 hd') _ (OrderedMap.mem_entries_iff.2 he')

/-- **The updates of a snapshot make its levels**, in every order. -/
theorem Safe.levels_restored (h : book.Safe) (hrestored : restored.Pristine)
    (hperm : deltas.Perm (deltasOf book.snapshot)) :
    (restored.replay deltas).levels = book.levels := by
  funext side
  refine OrderedMap.ext_find? fun price ↦ Option.ext fun v ↦ ?_
  rw [find?_replay hrestored.isEmpty, (h.uncrossed hperm).accepted_eq hrestored.isEmpty]
  constructor
  · rintro ⟨d, hd, rfl, -⟩
    have hmem := List.mem_filter.1 (List.mem_of_getLast? hd)
    obtain ⟨rfl, rfl⟩ := of_decide_eq_true hmem.2
    exact (mem_deltasOf_iff.1 (hperm.mem_iff.1 hmem.1)).2
  · intro hfind
    let d := setLevel book.snapshot.symbol side ⟨price, v⟩
    have hd : d ∈ deltas := hperm.mem_iff.2 (mem_deltasOf_iff.2 ⟨rfl, hfind⟩)
    refine ⟨d, lastBy_eq_some_of_unique hd (decide_eq_true ⟨rfl, rfl⟩) fun e he habout ↦ ?_, rfl,
      (h.uncrossed hperm).volume d hd⟩
    -- another update about this level sets the same volume
    obtain ⟨heq, hfind'⟩ := mem_deltasOf_iff.1 (hperm.mem_iff.1 he)
    obtain ⟨hside, hprice⟩ := of_decide_eq_true habout
    rw [hside, hprice, hfind] at hfind'
    rw [heq, hside, hprice, ← Option.some.inj hfind']

/-- **A snapshot round trip.** Of every reachable book: the levels its snapshot lists, applied as
updates to a constructed or cleared book in any order, are all accepted and make the same levels, so
the restored book lists the same bids and asks, counts the same levels and reports the same best
prices; it has counted one update for each level and removed none. -/
theorem snapshot_restores [Zero P] (symbol : List UInt8) (ops : List (Op P))
    (hrestored : restored.Pristine)
    (hperm : deltas.Perm (deltasOf (ops.foldl step (new symbol)).snapshot)) :
    let book := ops.foldl step (new symbol)
    let after := restored.replay deltas
    restored.AllAccepted deltas ∧
      (after.snapshot.bids = book.snapshot.bids ∧ after.snapshot.asks = book.snapshot.asks) ∧
      (after.bidLevels = book.bidLevels ∧ after.askLevels = book.askLevels) ∧
      (after.bestBid = book.bestBid ∧ after.bestAsk = book.bestAsk) ∧
      after.updatesApplied = book.bidLevels + book.askLevels ∧ after.levelsRemoved = 0 := by
  intro book after
  have hsafe : book.Safe := safe_of_run symbol ops
  have huncrossed := hsafe.uncrossed hperm
  have hlevels := hsafe.levels_restored hrestored hperm
  have hbids : after.bids = book.bids := congrFun hlevels .bid
  have hasks : after.asks = book.asks := congrFun hlevels .ask
  have hremoved : restored.levelsRemoved = 0 := by
    rcases hrestored with ⟨_, rfl⟩ | ⟨_, rfl⟩ <;> rfl
  refine ⟨fun seen d rest hsplit ↦ huncrossed.not_refuses hrestored.isEmpty hsplit, ⟨?_, ?_⟩,
    ⟨?_, ?_⟩, ⟨?_, ?_⟩, ?_, ?_⟩
  · simp only [snapshot, hbids]
  · simp only [snapshot, hasks]
  · rw [bidLevels, hbids, bidLevels]
  · rw [askLevels, hasks, askLevels]
  · rw [bestBid, hbids, bestBid]
  · rw [bestAsk, hasks, bestAsk]
  · rw [updatesApplied_replay hrestored, hperm.length_eq, deltasOf, List.length_append,
      List.length_map, List.length_map, length_snapshot_bids, length_snapshot_asks]
  · rw [(counters_replay restored huncrossed.volume).2.2.2, hremoved]

/-- A bid and an ask, restored in the other order. -/
theorem snapshot_restores_pair :
    let delta : OrderSide → ℕ → BookDelta ℕ := fun side price ↦
      ⟨(MarketTick.shareOfA 1).symbol, side, price, 5, 0⟩
    let book := [Op.apply (delta .bid 3), .apply (delta .ask 4)].foldl step (new [65])
    ((new [65]).replay (deltasOf book.snapshot).reverse).bestBid = book.bestBid := by
  intro delta book
  exact (snapshot_restores [65] _ (Or.inl ⟨[65], rfl⟩) (List.reverse_perm _)).2.2.2.1.1

end OrderBook

end Mdp
