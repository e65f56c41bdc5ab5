import MarketDataProcessor.Book.Replay

/-!
# Where the levels of a book go

`apply` creates a level without saying so, by `operator[]`, and removes one by `erase`, of which
`levels_removed()` adds up the results. So a level that was created is either still there or was
counted on its way out: the number of levels and `levels_removed()` together are the number of
levels created since the book was constructed or cleared.

A level is created by a delta of positive volume that the guard lets through and that finds no level
at its side and price (`createsLevel`). Everything else an update can do moves a level from one
count to the other or leaves both (`levelBalance_apply`).

## One update, then runs

The whole argument is `levelBalance_apply`, by the three things an update can do. A refused delta
touches no level (`createsLevel_of_refuses`). A delta of volume zero creates nothing and moves what
`erase` finds from the levels to the count (`levelsRemoved_apply_of_zero`). An accepted delta with
volume makes its side one longer exactly if it finds no entry (`createsLevel_of_not_refuses`,
`levelCount_of_update`).

`levelBalance_replay` adds this up along a sequence, and `levels_conserved` starts it at a book
without levels whose count is zero. Prices need nothing but an order, so the module is about books
over any linear order.
-/

namespace Mdp

namespace OrderBook

open History

variable {P : Type*} [LinearOrder P]

/-- The delta has volume, is accepted, and meets no level at its side and price. -/
def createsLevel (book : OrderBook P) (delta : BookDelta P) : Bool :=
  decide (0 < delta.volume) && !book.refuses delta &&
    ((book.levels delta.side).find? delta.price).isNone

/-- The deltas that create a level of the book they meet. -/
def created (book : OrderBook P) (deltas : List (BookDelta P)) : List (BookDelta P) :=
  filterAlong (fun seen delta ↦ (book.replay seen).createsLevel delta) deltas

/-- The levels that were counted out, and those there are. -/
def levelBalance (book : OrderBook P) : ℕ :=
  book.levelsRemoved + book.bidLevels + book.askLevels

/-! ### One update -/

theorem createsLevel_of_refuses {book : OrderBook P} {delta : BookDelta P}
    (hr : book.refuses delta = true) : book.createsLevel delta = false := by
  rw [createsLevel, hr, Bool.not_true, Bool.and_false, Bool.false_and]

theorem createsLevel_of_zero {book : OrderBook P} {delta : BookDelta P} (hv : delta.volume = 0) :
    book.createsLevel delta = false := by
  rw [createsLevel, hv]
  rfl

/-- An accepted delta with volume creates its level unless it finds it. -/
theorem createsLevel_of_not_refuses {book : OrderBook P} {delta : BookDelta P}
    (hv : 0 < delta.volume) (hr : book.refuses delta = false) :
    book.createsLevel delta = !((book.levels delta.side).find? delta.price).isSome := by
  rw [createsLevel, hr, decide_eq_true hv, Option.not_isSome, Bool.not_false, Bool.and_self,
    Bool.true_and]

/-- A removal adds what `erase` returned. -/
theorem levelsRemoved_apply_of_zero {book : OrderBook P} {delta : BookDelta P}
    (hv : delta.volume = 0) : (book.apply delta).levelsRemoved =
      book.levelsRemoved + erasedLevels (book.levels delta.side) delta.price := by
  have hr : ¬ ({ book with
      sequence := book.sequence + 1
      updatesApplied := book.updatesApplied + 1 } : OrderBook P).refuses delta = true :=
    fun hr ↦ absurd (hv ▸ (refuses_iff.1 hr).1) (by decide)
  rw [apply, if_neg hr]
  cases delta.side <;> simp [hv]

/-- A new side makes its own difference to the number of levels. -/
theorem levelCount_of_update {book after : OrderBook P} {side : OrderSide}
    {levels : OrderedMap P UInt64} (h : after.levels = Function.update book.levels side levels) :
    after.bidLevels + after.askLevels + (book.levels side).size =
      book.bidLevels + book.askLevels + levels.size := by
  have hbids : after.bids = Function.update book.levels side levels .bid := congrFun h .bid
  have hasks : after.asks = Function.update book.levels side levels .ask := congrFun h .ask
  rw [bidLevels, askLevels, hbids, hasks, bidLevels, askLevels]
  cases side with
  | bid =>
    show levels.size + book.asks.size + book.bids.size = _
    omega
  | ask =>
    show book.bids.size + levels.size + book.asks.size = _
    omega

/-- **One update changes the balance by the level it creates**, if it creates one. -/
theorem levelBalance_apply (book : OrderBook P) (delta : BookDelta P) :
    (book.apply delta).levelBalance =
      book.levelBalance + if book.createsLevel delta then 1 else 0 := by
  rw [levelBalance, levelBalance]
  rcases book.apply_cases delta with ⟨hr, hl⟩ | ⟨hr, hv, hl⟩ | ⟨hv, hl⟩
  · -- refused: both counts stay
    obtain ⟨hbids, hasks⟩ := sides_apply_of_refuses hr
    rw [bidLevels, askLevels, hbids, hasks, levelsRemoved_apply (refuses_iff.1 hr).1,
      createsLevel_of_refuses hr]
    rfl
  · have hcount := levelCount_of_update hl
    rw [OrderedMap.size_insert] at hcount
    rw [levelsRemoved_apply hv, createsLevel_of_not_refuses hv hr]
    cases hfound : ((book.levels delta.side).find? delta.price).isSome with
    | true =>
      rw [hfound, if_pos rfl] at hcount
      simp only [Bool.not_true, Bool.false_eq_true, if_false]
      omega
    | false =>
      -- the level is new
      rw [hfound, if_neg Bool.false_ne_true] at hcount
      simp only [Bool.not_false, if_true]
      omega
  · -- a level that is erased is counted
    have hcount := levelCount_of_update hl
    have hsize := OrderedMap.size_erase_add (book.levels delta.side) delta.price
    rw [levelsRemoved_apply_of_zero hv, createsLevel_of_zero hv, erasedLevels]
    simp only [Bool.false_eq_true, if_false]
    omega

/-! ### Whole runs -/

theorem levelBalance_of_pristine {book : OrderBook P} (h : book.Pristine) :
    book.levelBalance = 0 := by
  rcases h with ⟨symbol, rfl⟩ | ⟨used, rfl⟩ <;> rfl

/-- **Every level ever created is there or was counted out.** -/
theorem levelBalance_replay {book : OrderBook P} (h : book.Pristine)
    (deltas : List (BookDelta P)) :
    (book.replay deltas).levelBalance = (book.created deltas).length := by
  induction deltas using List.reverseRecOn with
  | nil => exact levelBalance_of_pristine h
  | append_singleton deltas delta ih =>
    have hcreated : book.created (deltas ++ [delta]) = book.created deltas ++
        if (book.replay deltas).createsLevel delta then [delta] else [] :=
      filterAlong_concat _ deltas delta
    rw [replay_concat, levelBalance_apply, ih, hcreated, List.length_append]
    split_ifs <;> rfl

/-- **Level conservation.** After any sequence of `apply` calls on a constructed or cleared book,
`levels_removed() + bid_levels() + ask_levels()` is the number of accepted deltas with volume that
met no level at their side and price; and a further delta that removes an absent level, overwrites a
level or is refused leaves the sum, as does one that removes a level. -/
theorem levels_conserved {book : OrderBook P} (h : book.Pristine) (deltas : List (BookDelta P)) :
    let after := book.replay deltas
    after.levelsRemoved + after.bidLevels + after.askLevels = (book.created deltas).length ∧
      ∀ delta : BookDelta P,
        (delta.volume = 0 ∨ ((after.levels delta.side).find? delta.price).isSome = true ∨
          after.refuses delta = true) →
        let next := after.apply delta
        next.levelsRemoved + next.bidLevels + next.askLevels =
          after.levelsRemoved + after.bidLevels + after.askLevels := by
  intro after
  refine ⟨levelBalance_replay h deltas, fun delta hdelta ↦ ?_⟩
  have hkeeps : after.createsLevel delta = false := by
    rcases hdelta with hv | hfound | hr
    · exact createsLevel_of_zero hv
    · rw [createsLevel, Option.isNone_eq_false_iff.2 hfound, Bool.and_false]
    · exact createsLevel_of_refuses hr
  have hstep := levelBalance_apply after delta
  rw [hkeeps] at hstep
  exact hstep

/-- On a cleared book: a bid at 3, set twice, an ask at 2 that would cross it, a removal at 4 where
there is nothing, and one at 3. One level was created, and it was counted out. -/
theorem levels_conserved_cleared :
    let delta : OrderSide → ℕ → UInt64 → BookDelta ℕ := fun side price volume ↦
      ⟨Vector.replicate 8 65, side, price, volume, 0⟩
    let deltas := [delta .bid 3 1, delta .bid 3 2, delta .ask 2 1, delta .bid 4 0, delta .bid 3 0]
    let after := (new [65] : OrderBook ℕ).clear.replay deltas
    after.levelsRemoved + after.bidLevels + after.askLevels = 1 ∧ after.levelsRemoved = 1 := by
  intro delta deltas after
  have hclear : (new [65] : OrderBook ℕ).clear.Pristine := Or.inr ⟨new [65], rfl⟩
  exact ⟨(levels_conserved hclear deltas).1.trans (by decide +kernel), by decide +kernel⟩

end OrderBook

end Mdp
