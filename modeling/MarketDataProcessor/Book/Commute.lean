import MarketDataProcessor.Book.Replay

/-!
# Updates that commute

The guard judges a delta by the other side of the book, so two deltas may interfere in two ways:
they write the same level, or one of them moves the best price the other is judged by. Neither
happens between deltas of one side at different prices, nor between a bid and an ask that add volume
and do not cross each other (`Independent`). Such deltas commute on every book (`apply_comm`).

Deltas that do not cross each other at all are all accepted by an empty book, in every order, and
the book they make is read off level by level: the order matters only among the deltas of one level.

## The two theorems, and what each rests on

* `apply_comm` compares two books, so it needs to know what a book is: its two maps and its
  counters (`ext_levels`). The maps agree because independent deltas are about different levels
  (`Independent.not_isAbout`); the counters because `counters_apply` adds to each a number that the
  other delta does not change (`refuses_apply_of_independent`, `removedBy_apply_of_independent`).
  `replay_swap` carries this to adjacent deltas in the middle of a sequence.
* `Uncrossed.replay_eq` is about sequences, not pairs. A book that starts without levels accepts
  every delta of an uncrossed sequence (`Uncrossed.not_refuses`), so by the replay theorem a level
  is what the last delta about it said, and two sequences with the same deltas about each level make
  the same levels.

The second could be reached from the first by exchanging neighbours over and over; by way of the
replay theorem it needs no argument about permutations.
-/

namespace Mdp

namespace OrderBook

open History

variable {P : Type*} [LinearOrder P]

/-! ### A book is its levels and its counters -/

/-- What a delta adds to `levels_removed`. -/
def removedBy (book : OrderBook P) (delta : BookDelta P) : ℕ :=
  if delta.volume = 0 then erasedLevels (book.levels delta.side) delta.price else 0

/-- **The counters of an update.** Only a removal that finds its level moves the third. -/
theorem counters_apply (book : OrderBook P) (delta : BookDelta P) :
    (book.apply delta).symbol = book.symbol ∧
      (book.apply delta).sequence = book.sequence + 1 ∧
      (book.apply delta).updatesApplied = book.updatesApplied + 1 ∧
      (book.apply delta).levelsRemoved = book.levelsRemoved + book.removedBy delta := by
  have hzero : book.refuses delta = true → delta.volume ≠ 0 := fun hr hv ↦
    absurd (hv ▸ (refuses_iff.1 hr).1) (by decide)
  unfold removedBy
  by_cases hr : book.refuses delta = true
  · have hr' : ({ book with
        sequence := book.sequence + 1
        updatesApplied := book.updatesApplied + 1 } : OrderBook P).refuses delta = true := hr
    rw [apply, if_pos hr', if_neg (hzero hr)]
    exact ⟨rfl, rfl, rfl, rfl⟩
  · have hr' : ¬ ({ book with
        sequence := book.sequence + 1
        updatesApplied := book.updatesApplied + 1 } : OrderBook P).refuses delta = true := hr
    rw [apply, if_neg hr']
    cases hside : delta.side <;> by_cases hv : delta.volume = 0 <;> simp [hv]

theorem ext_levels {book other : OrderBook P} (hsymbol : book.symbol = other.symbol)
    (hsequence : book.sequence = other.sequence)
    (hupdates : book.updatesApplied = other.updatesApplied)
    (hremoved : book.levelsRemoved = other.levelsRemoved)
    (hlevels : ∀ side price, (book.levels side).find? price = (other.levels side).find? price) :
    book = other := by
  have hbids : book.bids = other.bids := OrderedMap.ext_find? (hlevels .bid)
  have hasks : book.asks = other.asks := OrderedMap.ext_find? (hlevels .ask)
  cases book
  cases other
  simp only at hsymbol hsequence hupdates hremoved hbids hasks
  subst hsymbol hsequence hupdates hremoved hbids hasks
  rfl

/-! ### Independent deltas -/

/-- Deltas of one side at different prices, or a bid and an ask with volume that do not cross. -/
def Independent (d e : BookDelta P) : Prop :=
  (d.side = e.side ∧ d.price ≠ e.price) ∨
    (0 < d.volume ∧ 0 < e.volume ∧
      ((d.side = .bid ∧ e.side = .ask ∧ d.price ≤ e.price) ∨
        (d.side = .ask ∧ e.side = .bid ∧ e.price ≤ d.price)))

theorem Independent.symm {d e : BookDelta P} (h : Independent d e) : Independent e d := by
  rcases h with ⟨hside, hprice⟩ | ⟨hd, he, hsides⟩
  · exact Or.inl ⟨hside.symm, hprice.symm⟩
  · exact Or.inr ⟨he, hd, hsides.elim (fun ⟨h₁, h₂, hle⟩ ↦ Or.inr ⟨h₂, h₁, hle⟩)
      fun ⟨h₁, h₂, hle⟩ ↦ Or.inl ⟨h₂, h₁, hle⟩⟩

/-- Independent deltas are about different levels. -/
theorem Independent.not_isAbout {d e : BookDelta P} (h : Independent d e) {side : OrderSide}
    {price : P} (hd : isAbout side price d = true) : isAbout side price e = false := by
  obtain ⟨hside, hprice⟩ := of_decide_eq_true hd
  refine decide_eq_false fun ⟨hside', hprice'⟩ ↦ ?_
  rcases h with ⟨-, hne⟩ | ⟨-, -, ⟨hbid, hask, -⟩ | ⟨hask, hbid, -⟩⟩
  · exact hne (hprice.trans hprice'.symm)
  · rw [← hside', hask] at hside
    exact absurd (hbid.symm.trans hside) (by decide)
  · rw [← hside', hbid] at hside
    exact absurd (hask.symm.trans hside) (by decide)

/-- The guard, over all levels of the other side. -/
theorem refuses_iff_exists {book : OrderBook P} {delta : BookDelta P} :
    book.refuses delta = true ↔ 0 < delta.volume ∧
      ((delta.side = .bid ∧ ∃ level ∈ book.asks.entries, level.1 < delta.price) ∨
        (delta.side = .ask ∧ ∃ level ∈ book.bids.entries, delta.price < level.1)) := by
  cases hr : book.refuses delta with
  | true =>
    obtain ⟨hv, hsides⟩ := refuses_iff.1 hr
    refine iff_of_true rfl ⟨hv, hsides.imp ?_ ?_⟩
    · rintro ⟨hside, level, hfirst, hlt⟩
      exact ⟨hside, level, (OrderedMap.first?_eq_some_iff.1 hfirst).1, hlt⟩
    · rintro ⟨hside, level, hlast, hlt⟩
      exact ⟨hside, level, (OrderedMap.last?_eq_some_iff.1 hlast).1, hlt⟩
  | false =>
    refine iff_of_false (by simp) ?_
    rintro ⟨hv, ⟨hside, level, hlevel, hlt⟩ | ⟨hside, level, hlevel, hlt⟩⟩
    · exact absurd (le_ask_of_not_refuses hv hside hr level hlevel) (not_le.2 hlt)
    · exact absurd (bid_le_of_not_refuses hv hside hr level hlevel) (not_le.2 hlt)

/-- **An independent delta does not change the guard's mind.** -/
theorem refuses_apply_of_independent (book : OrderBook P) {d e : BookDelta P}
    (h : Independent d e) : (book.apply d).refuses e = book.refuses e := by
  rw [Bool.eq_iff_iff, refuses_iff_exists, refuses_iff_exists]
  refine and_congr_right fun _ ↦ or_congr (and_congr_right fun hside ↦ ?_)
    (and_congr_right fun hside ↦ ?_)
  · -- a bid is judged by the asks
    refine ⟨fun ⟨level, hlevel, hlt⟩ ↦ ?_, fun ⟨level, hlevel, hlt⟩ ↦ ?_⟩
    · rcases fst_of_mem_levels_apply (show level ∈ ((book.apply d).levels .ask).entries from hlevel)
        with hold | ⟨hask, hprice⟩
      · exact ⟨level, hold, hlt⟩
      · rcases h with ⟨heq, -⟩ | ⟨-, -, ⟨hbid, -⟩ | ⟨-, -, hle⟩⟩
        · exact absurd (hask.trans (heq.trans hside)) (by decide)
        · exact absurd (hask.trans hbid) (by decide)
        · rw [hprice] at hlt
          exact absurd hlt (not_lt.2 hle)
    · rcases h with ⟨heq, -⟩ | ⟨hv, -⟩
      · have hasks : (book.apply d).levels .ask = book.levels .ask :=
          book.levels_apply_of_ne d (by rw [heq, hside]; decide)
        exact ⟨level, by rw [← levels_ask, hasks]; exact hlevel, hlt⟩
      · obtain ⟨w, hmem⟩ := exists_mem_levels_apply hv
          (show level ∈ (book.levels .ask).entries from hlevel)
        exact ⟨_, hmem, hlt⟩
  · -- an ask is judged by the bids
    refine ⟨fun ⟨level, hlevel, hlt⟩ ↦ ?_, fun ⟨level, hlevel, hlt⟩ ↦ ?_⟩
    · rcases fst_of_mem_levels_apply (show level ∈ ((book.apply d).levels .bid).entries from hlevel)
        with hold | ⟨hbid, hprice⟩
      · exact ⟨level, hold, hlt⟩
      · rcases h with ⟨heq, -⟩ | ⟨-, -, ⟨-, -, hle⟩ | ⟨hask, -⟩⟩
        · exact absurd (hbid.trans (heq.trans hside)) (by decide)
        · rw [hprice] at hlt
          exact absurd hlt (not_lt.2 hle)
        · exact absurd (hbid.trans hask) (by decide)
    · rcases h with ⟨heq, -⟩ | ⟨hv, -⟩
      · have hbids : (book.apply d).levels .bid = book.levels .bid :=
          book.levels_apply_of_ne d (by rw [heq, hside]; decide)
        exact ⟨level, by rw [← levels_bid, hbids]; exact hlevel, hlt⟩
      · obtain ⟨w, hmem⟩ := exists_mem_levels_apply hv
          (show level ∈ (book.levels .bid).entries from hlevel)
        exact ⟨_, hmem, hlt⟩

/-- A delta reads the level it is about, and no independent delta writes it. -/
theorem removedBy_apply_of_independent (book : OrderBook P) {d e : BookDelta P}
    (h : Independent d e) : (book.apply d).removedBy e = book.removedBy e := by
  have habout : isAbout e.side e.price d = false :=
    h.symm.not_isAbout (decide_eq_true ⟨rfl, rfl⟩)
  have hfind := find?_levels_apply book d e.side e.price
  rw [habout, Bool.and_false, if_neg (by simp)] at hfind
  rw [removedBy, removedBy, erasedLevels, erasedLevels, hfind]

/-- **Independent deltas commute**, on every book. -/
theorem apply_comm (book : OrderBook P) {d e : BookDelta P} (h : Independent d e) :
    (book.apply d).apply e = (book.apply e).apply d := by
  obtain ⟨hs₁, hq₁, hu₁, hr₁⟩ := (book.apply d).counters_apply e
  obtain ⟨hs₂, hq₂, hu₂, hr₂⟩ := book.counters_apply d
  obtain ⟨hs₃, hq₃, hu₃, hr₃⟩ := (book.apply e).counters_apply d
  obtain ⟨hs₄, hq₄, hu₄, hr₄⟩ := book.counters_apply e
  refine ext_levels (by rw [hs₁, hs₂, hs₃, hs₄]) (by rw [hq₁, hq₂, hq₃, hq₄])
    (by rw [hu₁, hu₂, hu₃, hu₄]) ?_ fun side price ↦ ?_
  · rw [hr₁, hr₂, hr₃, hr₄, removedBy_apply_of_independent book h,
      removedBy_apply_of_independent book h.symm]
    omega
  · rw [find?_levels_apply, find?_levels_apply, find?_levels_apply, find?_levels_apply,
      refuses_apply_of_independent book h, refuses_apply_of_independent book h.symm]
    cases hd : isAbout side price d with
    | true => simp [h.not_isAbout hd]
    | false => simp

/-- **Exchanging adjacent independent deltas** changes nothing further on. -/
theorem replay_swap (book : OrderBook P) (before after : List (BookDelta P)) {d e : BookDelta P}
    (h : Independent d e) :
    book.replay (before ++ d :: e :: after) = book.replay (before ++ e :: d :: after) := by
  rw [replay, replay, List.foldl_append, List.foldl_append]
  exact congrArg (after.foldl apply) (apply_comm _ h)

/-! ### Deltas that do not cross each other -/

/-- Every delta adds volume, and no bid is above an ask. -/
structure Uncrossed (deltas : List (BookDelta P)) : Prop where
  /-- No removals. -/
  volume : ∀ d ∈ deltas, 0 < d.volume
  /-- Bids do not exceed asks. -/
  le : ∀ d ∈ deltas, ∀ e ∈ deltas, d.side = .bid → e.side = .ask → d.price ≤ e.price

/-- Every level goes back to a delta about it. -/
theorem exists_delta_of_mem_levels {book : OrderBook P} (h : book.IsEmpty)
    (deltas : List (BookDelta P)) (side : OrderSide) {level : P × UInt64}
    (hlevel : level ∈ ((book.replay deltas).levels side).entries) :
    ∃ d ∈ deltas, d.side = side ∧ d.price = level.1 := by
  induction deltas using List.reverseRecOn generalizing level with
  | nil =>
    have hnone := h.find?_levels side level.1
    rw [show (book.levels side).find? level.1 = some level.2 from
      OrderedMap.mem_entries_iff.1 hlevel] at hnone
    exact absurd hnone (by simp)
  | append_singleton deltas d ih =>
    rw [replay_concat] at hlevel
    rcases fst_of_mem_levels_apply hlevel with hold | ⟨hside, hprice⟩
    · obtain ⟨d', hd', habout⟩ := ih hold
      exact ⟨d', List.mem_append_left _ hd', habout⟩
    · exact ⟨d, List.mem_append_right _ List.mem_cons_self, hside.symm, hprice.symm⟩

/-- **An empty book refuses none of them.** -/
theorem Uncrossed.not_refuses {book : OrderBook P} (hbook : book.IsEmpty)
    {deltas : List (BookDelta P)} (h : Uncrossed deltas) {seen rest : List (BookDelta P)}
    {d : BookDelta P} (hsplit : deltas = seen ++ d :: rest) :
    (book.replay seen).refuses d = false := by
  have hd : d ∈ deltas := hsplit ▸ by simp
  have hseen : ∀ e ∈ seen, e ∈ deltas := fun e he ↦ hsplit ▸ List.mem_append_left _ he
  rw [Bool.eq_false_iff, ne_eq, refuses_iff_exists]
  rintro ⟨-, ⟨hside, level, hlevel, hlt⟩ | ⟨hside, level, hlevel, hlt⟩⟩
  · obtain ⟨e, he, heside, heprice⟩ := exists_delta_of_mem_levels hbook seen .ask hlevel
    exact absurd (h.le d hd e (hseen e he) hside heside) (not_le.2 (heprice ▸ hlt))
  · obtain ⟨e, he, heside, heprice⟩ := exists_delta_of_mem_levels hbook seen .bid hlevel
    exact absurd (h.le e (hseen e he) d hd heside hside) (not_le.2 (heprice ▸ hlt))

theorem Uncrossed.accepted_eq {book : OrderBook P} (hbook : book.IsEmpty)
    {deltas : List (BookDelta P)} (h : Uncrossed deltas) : book.accepted deltas = deltas := by
  induction deltas using List.reverseRecOn with
  | nil => rfl
  | append_singleton deltas d ih =>
    have hprefix : Uncrossed deltas :=
      ⟨fun e he ↦ h.volume e (List.mem_append_left _ he), fun e he e' he' ↦
        h.le e (List.mem_append_left _ he) e' (List.mem_append_left _ he')⟩
    have hlast : (book.replay deltas).refuses d = false := h.not_refuses hbook rfl
    have hkept := ih hprefix
    rw [accepted] at hkept ⊢
    rw [filterAlong_concat, hkept, hlast]
    rfl

/-- Along deltas with volume the counters only count. -/
theorem counters_replay (book : OrderBook P) {deltas : List (BookDelta P)}
    (h : ∀ d ∈ deltas, 0 < d.volume) :
    (book.replay deltas).symbol = book.symbol ∧
      (book.replay deltas).sequence = book.sequence + deltas.length ∧
      (book.replay deltas).updatesApplied = book.updatesApplied + deltas.length ∧
      (book.replay deltas).levelsRemoved = book.levelsRemoved := by
  induction deltas using List.reverseRecOn with
  | nil => exact ⟨rfl, rfl, rfl, rfl⟩
  | append_singleton deltas d ih =>
    obtain ⟨hs, hq, hu, hr⟩ := ih fun e he ↦ h e (List.mem_append_left _ he)
    obtain ⟨hs', hq', hu', -⟩ := (book.replay deltas).counters_apply d
    have hr' : ((book.replay deltas).apply d).levelsRemoved = _ :=
      levelsRemoved_apply (h d (List.mem_append_right _ List.mem_cons_self))
    rw [replay_concat, List.length_append, List.length_singleton]
    exact ⟨hs'.trans hs, by omega, by omega, hr'.trans hr⟩

/-- **The order among different levels does not matter.** -/
theorem Uncrossed.replay_eq {book : OrderBook P} (hbook : book.IsEmpty)
    {deltas reordered : List (BookDelta P)} (h : Uncrossed deltas) (hperm : reordered.Perm deltas)
    (hsame : ∀ side price,
      reordered.filter (isAbout side price) = deltas.filter (isAbout side price)) :
    book.replay reordered = book.replay deltas := by
  have h' : Uncrossed reordered :=
    ⟨fun d hd ↦ h.volume d (hperm.subset hd), fun d hd e he ↦
      h.le d (hperm.subset hd) e (hperm.subset he)⟩
  obtain ⟨hs, hq, hu, hr⟩ := book.counters_replay h.volume
  obtain ⟨hs', hq', hu', hr'⟩ := book.counters_replay h'.volume
  refine ext_levels (hs'.trans hs.symm) (by rw [hq, hq', hperm.length_eq])
    (by rw [hu, hu', hperm.length_eq]) (hr'.trans hr.symm) fun side price ↦ ?_
  refine Option.ext fun volume ↦ ?_
  rw [find?_replay hbook, find?_replay hbook, h.accepted_eq hbook, h'.accepted_eq hbook, lastBy,
    lastBy, hsame]

/-- **Independent updates commute.** On every book and in every sequence of deltas, two adjacent
deltas of one side at different prices, or of opposite sides with volume and the bid's price at most
the ask's, can be exchanged: the levels, the best prices and the counters at the end are the same.
A book without levels, however it came to be so, refuses no delta of a sequence in which every delta
has volume and no bid is above an ask, and every rearrangement of it that keeps the order of the
deltas about each level gives the same book. -/
theorem independent_updates_commute [Zero P] :
    (∀ (book : OrderBook P) (before after : List (BookDelta P)) (d e : BookDelta P),
        ((d.side = e.side ∧ d.price ≠ e.price) ∨
          (d.side = .bid ∧ e.side = .ask ∧ 0 < d.volume ∧ 0 < e.volume ∧ d.price ≤ e.price) ∨
          (d.side = .ask ∧ e.side = .bid ∧ 0 < d.volume ∧ 0 < e.volume ∧ e.price ≤ d.price)) →
        let kept := book.replay (before ++ d :: e :: after)
        let exchanged := book.replay (before ++ e :: d :: after)
        kept.bids = exchanged.bids ∧ kept.asks = exchanged.asks ∧
          kept.bestBid = exchanged.bestBid ∧ kept.bestAsk = exchanged.bestAsk ∧
          kept.sequence = exchanged.sequence ∧
          kept.updatesApplied = exchanged.updatesApplied ∧
          kept.levelsRemoved = exchanged.levelsRemoved) ∧
      ∀ (book : OrderBook P) (deltas : List (BookDelta P)), book.IsEmpty →
        (∀ d ∈ deltas, 0 < d.volume) →
        (∀ d ∈ deltas, ∀ e ∈ deltas, d.side = .bid → e.side = .ask → d.price ≤ e.price) →
        (∀ seen d rest, deltas = seen ++ d :: rest → (book.replay seen).refuses d = false) ∧
          ∀ reordered : List (BookDelta P), reordered.Perm deltas →
            (∀ side price,
              reordered.filter (isAbout side price) = deltas.filter (isAbout side price)) →
            book.replay reordered = book.replay deltas := by
  constructor
  · intro book before after d e hindep kept exchanged
    have hswap : kept = exchanged := by
      refine book.replay_swap before after ?_
      rcases hindep with hside | ⟨hbid, hask, hd, he, hle⟩ | ⟨hask, hbid, hd, he, hle⟩
      · exact Or.inl hside
      · exact Or.inr ⟨hd, he, Or.inl ⟨hbid, hask, hle⟩⟩
      · exact Or.inr ⟨hd, he, Or.inr ⟨hask, hbid, hle⟩⟩
    rw [hswap]
    exact ⟨rfl, rfl, rfl, rfl, rfl, rfl, rfl⟩
  · intro book deltas hbook hvolume hle
    have h : Uncrossed deltas := ⟨hvolume, hle⟩
    exact ⟨fun seen d rest ↦ h.not_refuses hbook, fun reordered ↦ h.replay_eq hbook⟩

/-- A bid at 1 and an ask at 2 in either order, on a book that a removal has left without levels. -/
theorem independent_updates_commute_pair :
    let bid : BookDelta ℕ := ⟨Vector.replicate 8 65, .bid, 1, 1, 0⟩
    let ask : BookDelta ℕ := ⟨Vector.replicate 8 65, .ask, 2, 1, 0⟩
    let emptied := (new [65] : OrderBook ℕ).replay [bid, { bid with volume := 0 }]
    emptied.levelsRemoved = 1 ∧
      (emptied.replay [bid, ask]).bids = (emptied.replay [ask, bid]).bids ∧
      emptied.replay [ask, bid] = emptied.replay [bid, ask] := by
  intro bid ask emptied
  have hcommute := independent_updates_commute (P := ℕ)
  refine ⟨by decide, (hcommute.1 emptied [] [] bid ask ?_).1,
    (hcommute.2 emptied [bid, ask] (by decide : _ ∧ _) ?_ ?_).2 [ask, bid] ?_ ?_⟩
  · exact Or.inr (Or.inl ⟨rfl, rfl, by decide, by decide, by decide⟩)
  · simp only [List.forall_mem_cons]
    exact ⟨by decide, by decide, fun _ h ↦ by cases h⟩
  · simp [bid, ask]
  · exact List.Perm.swap bid ask []
  · intro side price
    cases side with
    | bid => simp [List.filter_cons, isAbout, bid, ask]
    | ask => simp [List.filter_cons, isAbout, bid, ask]

end OrderBook

end Mdp
