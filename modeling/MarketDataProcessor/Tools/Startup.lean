import MarketDataProcessor.Feed.FeedSimulator

/-!
# Starting the service

`processor_main.cpp` up to the construction of the pipeline: the two environment variables, the
three ways to end with status 1, and the configuration handed to the feed. `split_symbols` is a loop
of `std::getline` over a `std::stringstream`, which ends on a flag of the stream rather than on its
contents: reading the last item sets `eofbit`, and a comma at the very end leaves a stream that has
not met its end and fails at the next read.

`splitLoop_eq` says what the loop computes, and `startup_roundTrip` what can be configured at all:
the nonempty lists of nonempty symbols without a comma, each by its symbols joined with commas.

## From the loop to the round trip

`splitLoop_eq` is an induction over the length of the unread rest. A call of `getline` takes off
what is before the next comma and the comma, so the loop computes the split. How it ends is a matter
of the flag: after a last item without a comma `eofbit` is set and the next read fails, and after a
comma at the very end the next read finds nothing (`splitSymbols_append_comma`). An empty item at
the end is not seen either way, which is no matter, as empty items are dropped.

The round trip has two halves. `splitSymbols_join` says that a well-formed list comes back from the
string of its symbols joined with commas, and `wellFormed_splitSymbols` that nothing else comes out.
Empty items are where a string and its list differ, and the empty list is what `main` refuses.
-/

namespace Mdp

/-- `FeedConfig::is_valid()`, with the two fields that `FeedConfig` does not have here. -/
def FeedConfig.isValid (config : FeedConfig) (volatility : Double) (bufferSize : UInt64) : Bool :=
  if config.symbols.length ≠ config.initialPrices.length then false
  else if config.tickRateHz = 0 then false
  else if volatility.fle 0 then false
  else if bufferSize = 0 ∨ bufferSize &&& (bufferSize - 1) ≠ 0 then false
  else true

namespace ProcessorMain

/-- `','`. -/
def comma : UInt8 := 44

/-! ### The loop of `split_symbols` -/

/-- A `std::stringstream` that is read from. -/
structure Stream where
  rest : List UInt8
  /-- `eofbit`. -/
  eof : Bool

/-- `std::getline(stream, item, ',')`, when the stream is true afterwards. -/
def Stream.getline (stream : Stream) : Option (List UInt8 × Stream) :=
  if stream.eof then none
  else
    match stream.rest.dropWhile (· != comma) with
    | _ :: rest => some (stream.rest.takeWhile (· != comma), ⟨rest, false⟩)
    -- the end of the input: `failbit` is set as well if nothing was extracted
    | [] => if stream.rest = [] then none else some (stream.rest, ⟨[], true⟩)

theorem Stream.length_of_getline {stream next : Stream} {item : List UInt8}
    (h : stream.getline = some (item, next)) : next.rest.length < stream.rest.length := by
  unfold getline at h
  by_cases heof : stream.eof = true
  · rw [if_pos heof] at h
    cases h
  rw [if_neg heof] at h
  split at h
  next rest hrest =>
    obtain ⟨rfl, rfl⟩ := Prod.mk.inj (Option.some.inj h)
    have hle := (List.dropWhile_sublist (l := stream.rest) (p := (· != comma))).length_le
    rw [hrest, List.length_cons] at hle
    exact hle
  next =>
    by_cases hempty : stream.rest = []
    · rw [if_pos hempty] at h
      cases h
    · rw [if_neg hempty] at h
      obtain ⟨rfl, rfl⟩ := Prod.mk.inj (Option.some.inj h)
      exact List.length_pos_of_ne_nil hempty

/-- The loop of `split_symbols`. -/
def splitLoop (stream : Stream) (symbols : List (List UInt8)) : List (List UInt8) :=
  match _h : stream.getline with
  | none => symbols
  | some (item, next) => splitLoop next (if item = [] then symbols else symbols ++ [item])
termination_by stream.rest.length
decreasing_by exact Stream.length_of_getline _h

/-- `split_symbols`. -/
def splitSymbols (input : List UInt8) : List (List UInt8) := splitLoop ⟨input, false⟩ []

theorem splitLoop_of_none {stream : Stream} (h : stream.getline = none)
    (symbols : List (List UInt8)) : splitLoop stream symbols = symbols := by
  rw [splitLoop]
  split
  next => rfl
  next heq => cases h.symm.trans heq

theorem splitLoop_of_some {stream next : Stream} {item : List UInt8}
    (h : stream.getline = some (item, next)) (symbols : List (List UInt8)) :
    splitLoop stream symbols =
      splitLoop next (if item = [] then symbols else symbols ++ [item]) := by
  rw [splitLoop]
  split
  next heq => cases h.symm.trans heq
  next heq =>
    obtain ⟨rfl, rfl⟩ := Prod.mk.inj (Option.some.inj (h.symm.trans heq))
    rfl

/-- The items that are symbols. -/
def nonempty (items : List (List UInt8)) : List (List UInt8) := items.filter (· ≠ [])

theorem nonempty_cons (item : List UInt8) (items symbols : List (List UInt8)) :
    symbols ++ nonempty (item :: items) =
      (if item = [] then symbols else symbols ++ [item]) ++ nonempty items := by
  by_cases h : item = []
  · rw [if_pos h, nonempty, List.filter_cons_of_neg (by simpa using h), nonempty]
  · rw [if_neg h, nonempty, List.filter_cons_of_pos (by simpa using h), nonempty,
      List.append_assoc, List.singleton_append]

/-- **What the loop computes**: the items between the commas, less the empty ones. -/
theorem splitLoop_eq (input : List UInt8) (symbols : List (List UInt8)) :
    splitLoop ⟨input, false⟩ symbols = symbols ++ nonempty (input.splitOn comma) := by
  induction hn : input.length using Nat.strongRecOn generalizing input symbols with
  | _ n ih =>
    have hsplit := List.takeWhile_append_dropWhile (p := (· != comma)) (l := input)
    have hitem : comma ∉ input.takeWhile (· != comma) := fun hmem ↦ by
      simpa using List.mem_takeWhile_imp hmem
    cases hdrop : input.dropWhile (· != comma) with
    | nil =>
      rw [hdrop, List.append_nil] at hsplit
      rw [List.splitOn_eq_singleton (hsplit ▸ hitem), nonempty_cons]
      by_cases hempty : input = []
      · rw [splitLoop_of_none, if_pos hempty]
        · exact (List.append_nil _).symm
        · simp only [Stream.getline, hempty, List.dropWhile_nil, Bool.false_eq_true, if_false,
            if_true]
      · have hline : Stream.getline ⟨input, false⟩ = some (input, ⟨[], true⟩) := by
          simp only [Stream.getline, hdrop, hempty, Bool.false_eq_true, if_false]
        -- `eofbit` is set, so the next read fails
        rw [splitLoop_of_some hline, splitLoop_of_none rfl]
        exact (List.append_nil _).symm
    | cons c rest =>
      have hc : c = comma := by
        have hhead := List.head?_dropWhile_not (· != comma) input
        rw [hdrop] at hhead
        simpa using hhead
      subst hc
      have hline : Stream.getline ⟨input, false⟩ =
          some (input.takeWhile (· != comma), ⟨rest, false⟩) := by
        simp only [Stream.getline, hdrop, Bool.false_eq_true, if_false]
      have hlen : rest.length < n := by
        rw [← hn, ← hsplit, hdrop, List.length_append, List.length_cons]
        omega
      rw [splitLoop_of_some hline, ih rest.length hlen rest _ rfl, ← nonempty_cons]
      conv_rhs => rw [← hsplit, hdrop, List.splitOn_append_cons_self_of_not_mem hitem]

theorem splitSymbols_eq (input : List UInt8) :
    splitSymbols input = nonempty (input.splitOn comma) := by
  rw [splitSymbols, splitLoop_eq, List.nil_append]

/-- **A comma ends an item**, wherever it stands. -/
theorem splitSymbols_append_comma (first second : List UInt8) :
    splitSymbols (first ++ comma :: second) = splitSymbols first ++ splitSymbols second := by
  rw [splitSymbols_eq, splitSymbols_eq, splitSymbols_eq, List.splitOn_append_cons_self, nonempty,
    List.filter_append, nonempty, nonempty]

/-- The items of a split have no comma, and only bytes of the input. -/
theorem of_mem_splitOn {input item : List UInt8} (h : item ∈ input.splitOn comma) :
    comma ∉ item ∧ item ⊆ input := by
  induction hn : input.length using Nat.strongRecOn generalizing input with
  | _ n ih =>
    by_cases hcomma : comma ∈ input
    · obtain ⟨first, second, rfl, hfirst⟩ := List.eq_append_cons_of_mem hcomma
      rw [List.splitOn_append_cons_self_of_not_mem hfirst] at h
      rcases List.mem_cons.1 h with rfl | h
      · exact ⟨hfirst, List.subset_append_left _ _⟩
      · have hlen : second.length < n := by
          rw [← hn, List.length_append, List.length_cons]
          omega
        obtain ⟨hnot, hsub⟩ := ih second.length hlen h rfl
        exact ⟨hnot, fun b hb ↦ List.mem_append_right _ (List.mem_cons_of_mem _ (hsub hb))⟩
    · rw [List.splitOn_eq_singleton hcomma] at h
      obtain rfl := List.mem_singleton.1 h
      exact ⟨hcomma, List.Subset.refl _⟩

/-! ### What can be configured -/

/-- The value of an environment variable: bytes up to a terminating zero. -/
def EnvString : Type := {bytes : List UInt8 // 0 ∉ bytes}

/-- A list of symbols as the service can have it. -/
structure WellFormed (symbols : List (List UInt8)) : Prop where
  ne_nil : symbols ≠ []
  symbol_ne_nil : ∀ symbol ∈ symbols, symbol ≠ []
  comma_notMem : ∀ symbol ∈ symbols, comma ∉ symbol
  zero_notMem : ∀ symbol ∈ symbols, 0 ∉ symbol

theorem zero_notMem_intercalate {symbols : List (List UInt8)}
    (h : ∀ symbol ∈ symbols, 0 ∉ symbol) : 0 ∉ [comma].intercalate symbols := by
  induction symbols with
  | nil => exact List.not_mem_nil
  | cons symbol symbols ih =>
    cases symbols with
    | nil =>
      rw [List.intercalate_singleton]
      exact h symbol List.mem_cons_self
    | cons next symbols =>
      rw [List.intercalate_cons_cons, List.append_assoc]
      intro hmem
      rcases List.mem_append.1 hmem with hmem | hmem
      · exact h symbol List.mem_cons_self hmem
      rcases List.mem_append.1 hmem with hmem | hmem
      · exact absurd (List.mem_singleton.1 hmem) (by decide)
      · exact ih (fun symbol hsymbol ↦ h symbol (List.mem_cons_of_mem _ hsymbol)) hmem

/-- The symbols joined with commas. -/
def WellFormed.join {symbols : List (List UInt8)} (h : WellFormed symbols) : EnvString :=
  ⟨[comma].intercalate symbols, zero_notMem_intercalate h.zero_notMem⟩

/-- The ways of `main` to end before the pipeline is built, all with status 1. -/
inductive StartError where
  /-- "Environment variable MDP_DB_CONNECTION is missing!" -/
  | noConnection
  /-- "Environment variable MDP_SYMBOLS is missing!" -/
  | noSymbols
  /-- "MDP_SYMBOLS is set but contains no valid symbols!" -/
  | noValidSymbols

/-- `config` as the feed gets it. -/
def configOf (symbols : List (List UInt8)) : FeedConfig where
  symbols
  initialPrices := List.replicate symbols.length 0
  tickRateHz := 1

/-- `volatility` of `default_config()`: the double next to 0.001. -/
def defaultVolatility : Double := .fin (1152921504606847 / 1152921504606846976)

/-- `buffer_size` of `default_config()`. -/
def defaultBufferSize : UInt64 := 1048576

theorem isValid_configOf (symbols : List (List UInt8)) :
    (configOf symbols).isValid defaultVolatility defaultBufferSize = true := by
  have hlength : ¬ (configOf symbols).symbols.length ≠ (configOf symbols).initialPrices.length :=
    not_not.2 (List.length_replicate).symm
  have hvolatility : ¬ defaultVolatility.fle 0 = true := by decide +kernel
  have hrate : ¬ (configOf symbols).tickRateHz = 0 := (by decide : ¬ (1 : UInt64) = 0)
  rw [FeedConfig.isValid, if_neg hlength, if_neg hrate, if_neg hvolatility, if_neg (by decide)]

/-- `main` up to the construction of the pipeline: the connection string and the configuration. -/
def startup (dbConnEnv symbolsEnv : Option EnvString) :
    Except StartError (EnvString × FeedConfig) :=
  match dbConnEnv with
  | none => .error .noConnection
  | some dbConnStr =>
    match symbolsEnv with
    | none => .error .noSymbols
    | some symbolsStr =>
      let symbols := splitSymbols symbolsStr.1
      if symbols = [] then .error .noValidSymbols else .ok (dbConnStr, configOf symbols)

/-- **The split of a joined list** is the list. -/
theorem splitSymbols_join {symbols : List (List UInt8)} (h : WellFormed symbols) :
    splitSymbols h.join.1 = symbols := by
  rw [splitSymbols_eq]
  show nonempty (List.splitOn comma ([comma].intercalate symbols)) = symbols
  rw [List.splitOn_intercalate comma h.comma_notMem h.ne_nil, nonempty, List.filter_eq_self]
  exact fun symbol hsymbol ↦ decide_eq_true (h.symbol_ne_nil symbol hsymbol)

/-- **What a split finds is well formed**, if it finds anything. -/
theorem wellFormed_splitSymbols (input : EnvString) (h : splitSymbols input.1 ≠ []) :
    WellFormed (splitSymbols input.1) := by
  have hitem : ∀ symbol ∈ splitSymbols input.1, symbol ∈ input.1.splitOn comma ∧ symbol ≠ [] := by
    intro symbol hsymbol
    rw [splitSymbols_eq] at hsymbol
    obtain ⟨hmem, hne⟩ := List.mem_filter.1 hsymbol
    exact ⟨hmem, of_decide_eq_true hne⟩
  exact ⟨h, fun symbol hsymbol ↦ (hitem symbol hsymbol).2,
    fun symbol hsymbol ↦ (of_mem_splitOn (hitem symbol hsymbol).1).1,
    fun symbol hsymbol hzero ↦ input.2 ((of_mem_splitOn (hitem symbol hsymbol).1).2 hzero)⟩

/-- **Nothing but commas** is nothing. -/
theorem splitSymbols_eq_nil_iff (input : List UInt8) :
    splitSymbols input = [] ↔ ∀ b ∈ input, b = comma := by
  induction hn : input.length using Nat.strongRecOn generalizing input with
  | _ n ih =>
    by_cases hcomma : comma ∈ input
    · obtain ⟨first, second, rfl, hfirst⟩ := List.eq_append_cons_of_mem hcomma
      have hlen : first.length < n ∧ second.length < n := by
        rw [← hn, List.length_append, List.length_cons]
        omega
      rw [splitSymbols_append_comma, List.append_eq_nil_iff, ih _ hlen.1 first rfl,
        ih _ hlen.2 second rfl]
      simp only [List.mem_append, List.mem_cons]
      constructor
      · rintro ⟨h₁, h₂⟩ b (hb | rfl | hb)
        · exact h₁ b hb
        · rfl
        · exact h₂ b hb
      · exact fun h ↦ ⟨fun b hb ↦ h b (Or.inl hb), fun b hb ↦ h b (Or.inr (Or.inr hb))⟩
    · rw [splitSymbols_eq, List.splitOn_eq_singleton hcomma]
      cases input with
      | nil => exact iff_of_true rfl fun b hb ↦ absurd hb List.not_mem_nil
      | cons b rest =>
        exact iff_of_false (by simp [nonempty]) fun h ↦
          hcomma (h b List.mem_cons_self ▸ List.mem_cons_self)

/-- **The round trip of the configuration.** Whatever `MDP_SYMBOLS` holds: if the service starts,
its symbols are a well-formed list, the configuration is valid, and the same service starts from the
symbols joined with commas; every well-formed list of symbols is configured by joining it with
commas; and the service refuses to start for want of symbols exactly when there are only commas. -/
theorem startup_roundTrip (dbConnStr : EnvString) :
    (∀ symbolsStr started, startup (some dbConnStr) (some symbolsStr) = .ok started →
      started.2.isValid defaultVolatility defaultBufferSize = true ∧
        ∃ h : WellFormed started.2.symbols,
          startup (some dbConnStr) (some h.join) = .ok started) ∧
      (∀ symbols, ∀ h : WellFormed symbols,
        startup (some dbConnStr) (some h.join) = .ok (dbConnStr, configOf symbols)) ∧
      ∀ symbolsStr : EnvString, startup (some dbConnStr) (some symbolsStr) =
        .error .noValidSymbols ↔ ∀ b ∈ symbolsStr.1, b = comma := by
  have hjoin : ∀ symbols, ∀ h : WellFormed symbols,
      startup (some dbConnStr) (some h.join) = .ok (dbConnStr, configOf symbols) := by
    intro symbols h
    rw [startup, splitSymbols_join, if_neg h.ne_nil]
  refine ⟨fun symbolsStr started hstart ↦ ?_, hjoin, fun symbolsStr ↦ ?_⟩
  · rw [startup] at hstart
    by_cases hempty : splitSymbols symbolsStr.1 = []
    · rw [if_pos hempty] at hstart
      cases hstart
    · rw [if_neg hempty] at hstart
      obtain rfl := Except.ok.inj hstart
      exact ⟨isValid_configOf _, wellFormed_splitSymbols symbolsStr hempty, hjoin _ _⟩
  · rw [startup, ← splitSymbols_eq_nil_iff]
    by_cases hempty : splitSymbols symbolsStr.1 = []
    · rw [if_pos hempty]
      exact iff_of_true rfl hempty
    · rw [if_neg hempty]
      exact iff_of_false nofun hempty

/-- `A,,B` starts the service for `A` and `B`, as `A,B` does, and `,` starts none. -/
theorem startup_roundTrip_gap :
    let dbConnStr : EnvString := ⟨[100, 98], by decide⟩
    let started := startup (some dbConnStr) (some ⟨[65, 44, 44, 66], by decide⟩)
    started = .ok (dbConnStr, configOf [[65], [66]]) ∧
      started = startup (some dbConnStr) (some ⟨[65, 44, 66], by decide⟩) ∧
      (configOf [[65], [66]]).isValid defaultVolatility defaultBufferSize = true ∧
      startup (some dbConnStr) (some ⟨[44], by decide⟩) = .error .noValidSymbols := by
  intro dbConnStr started
  obtain ⟨hstarts, -, hrefuses⟩ := startup_roundTrip dbConnStr
  have hsplit : splitSymbols [65, 44, 44, 66] = [[65], [66]] := by
    rw [splitSymbols_eq]
    decide
  have hstarted : started = .ok (dbConnStr, configOf [[65], [66]]) := by
    simp only [started, startup, hsplit]
    rfl
  obtain ⟨hvalid, hwell, hjoined⟩ := hstarts _ _ hstarted
  have hcommas : ∀ b ∈ [comma], b = comma := List.forall_mem_singleton.2 rfl
  exact ⟨hstarted, hstarted.trans hjoined.symm, hvalid, (hrefuses _).2 hcommas⟩

end ProcessorMain

end Mdp
