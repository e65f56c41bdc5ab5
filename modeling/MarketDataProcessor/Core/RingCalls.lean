import MarketDataProcessor.Core.RingBufferSafety

/-!
# Calls on a ring buffer

What a thread gets from `try_push` and `try_pop`, access by access. A call returns at one of its
accesses: a refused push at the full test and a successful one at the store of `head_`, a pop that
finds nothing at the empty test and any other at the store of `tail_`. Everything the buffer does
for other threads it does at these stores, and `push_access` and `pop_access` say what that is, in
terms of the elements held alone (`items`). Nothing is said about when a call fails: the load it
rests on may be stale, so a push may be refused by a buffer that has room again, and a pop may miss
an element that is there.

## Who uses this

The safety module looks at a buffer from outside, with its own producer and consumer. A pipeline has
threads that do other things between their calls, and the threads of two buffers overlap. What such
a thread may assume of an access is in `PushAccess` and `PopAccess`: the elements held change at the
two stores only, by one element at the right end, and while a call is in progress its argument is
the caller's. The invariant of the buffer is used once, in `push_access` and `pop_access`; a model
with several buffers keeps one invariant for each and never opens it.
-/

namespace Mdp

/-- The accesses of a call of `try_push`, in order. -/
inductive PushMove where
  | call
  /-- The load of `tail_` that returns this position. -/
  | loadTail (j : ℕ)
  | fullTest
  | writeSlot
  | storeHead

/-- The access, in a call with this argument. -/
def PushMove.action {T : Type*} (item : T) : PushMove → SpscAction T
  | .call => .pushCall item
  | .loadTail j => .pushLoadTail j
  | .fullTest => .pushTest
  | .writeSlot => .pushWrite
  | .storeHead => .pushStore

/-- The accesses of a call of `try_pop`, in order. -/
inductive PopMove where
  | call
  /-- The load of `head_` that returns this position. -/
  | loadHead (j : ℕ)
  | emptyTest
  | readSlot
  | storeTail

/-- The access. -/
def PopMove.action {T : Type*} : PopMove → SpscAction T
  | .call => .popCall
  | .loadHead j => .popLoadHead j
  | .emptyTest => .popTest
  | .readSlot => .popRead
  | .storeTail => .popStore

/-- The argument of the call of `try_push` in progress. -/
def PushState.item : PushState T → Option T
  | .idle => none
  | .loadTail item _ => some item
  | .fullTest item _ _ _ => some item
  | .writeSlot item _ => some item
  | .storeHead item _ => some item

namespace Spsc

variable {T : Type*} {C : RingCapacity} {start : BitVec 64} {s t : Spsc T C} {item : T}

/-- The elements held, oldest first. -/
def items (s : Spsc T C) : List T := s.pushed.drop s.popped.length

/-- What the call of `try_push` returns at an access, if it does. -/
def pushResult (s : Spsc T C) : PushMove → Option Bool
  | .fullTest =>
    match s.producer with
    | .fullTest _ head tail _ => if C.isFull head tail then some false else none
    | _ => none
  | .storeHead => some true
  | _ => none

/-- What the call of `try_pop` returns at an access, if it does: nothing, or an element. -/
def popResult (s : Spsc T C) : PopMove → Option (Option T)
  | .emptyTest =>
    match s.consumer with
    | .emptyTest tail head _ => if head = tail then some none else none
    | _ => none
  | .storeTail =>
    match s.consumer with
    | .storeTail out _ => some (some out)
    | _ => none
  | _ => none

theorem Inv.length_items_le (hs : s.Inv start) : s.items.length ≤ C.N := by
  rw [items, List.length_drop]
  exact hs.held_le

/-- What an access of `try_push` does to what the consumer sees and to the call in progress. -/
structure PushAccess (item : T) (move : PushMove) (s t : Spsc T C) : Prop where
  /-- The argument is that of the call. -/
  argument : ∀ x ∈ t.producer.item, s.producer.item = some x ∨ x = item
  /-- A push that succeeds enters its element where there is room. -/
  pushed : s.pushResult move = some true →
    ∃ x, s.producer.item = some x ∧ s.items.length < C.N ∧ t.items = s.items ++ [x]
  /-- Nothing else is seen of it. -/
  other : s.pushResult move ≠ some true → t.items = s.items
  /-- A call that has returned is over. -/
  returned : ∀ b ∈ s.pushResult move, t.producer.item = none

/-- What an access of `try_pop` does. -/
structure PopAccess (move : PopMove) (s t : Spsc T C) : Prop where
  producer : t.producer = s.producer
  /-- A pop that succeeds takes the oldest element. -/
  popped : ∀ out, s.popResult move = some (some out) → s.items = out :: t.items
  /-- Nothing else is seen of it. -/
  other : (∀ out, s.popResult move ≠ some (some out)) → t.items = s.items

/-- An access at which the push does not return. -/
theorem PushAccess.of_none {move : PushMove} (hresult : s.pushResult move = none)
    (hargument : ∀ x ∈ t.producer.item, s.producer.item = some x ∨ x = item)
    (hitems : t.items = s.items) : PushAccess item move s t := by
  refine ⟨hargument, fun hr ↦ ?_, fun _ ↦ hitems, fun b hb ↦ ?_⟩
  · rw [hresult] at hr
    cases hr
  · rw [hresult] at hb
    cases hb

/-- An access at which the pop does not take an element. -/
theorem PopAccess.of_ne {move : PopMove} (hresult : ∀ out, s.popResult move ≠ some (some out))
    (hproducer : t.producer = s.producer) (hitems : t.items = s.items) : PopAccess move s t :=
  ⟨hproducer, fun out hr ↦ absurd hr (hresult out), fun _ ↦ hitems⟩

/-- **The accesses of `try_push`.** -/
theorem push_access (hs : s.Inv start) {move : PushMove} (h : s.step (move.action item) = some t) :
    PushAccess item move s t := by
  cases move with
  | call =>
    obtain ⟨-, rfl⟩ := step_pushCall h
    exact .of_none rfl (fun x hx ↦ Or.inr (Option.mem_some_iff.1 hx).symm) rfl
  | loadTail j =>
    obtain ⟨x, head, tail, hp, -, -, rfl⟩ := step_pushLoadTail h
    refine .of_none rfl (fun y hy ↦ Or.inl ?_) rfl
    rw [hp]
    exact hy
  | fullTest =>
    obtain ⟨x, head, tail, obs, hp, ⟨hfull, rfl⟩ | ⟨hroom, rfl⟩⟩ := step_pushTest h
    · have hresult : s.pushResult .fullTest = some false := by
        simp only [pushResult, hp, hfull, if_true]
      refine ⟨fun y hy ↦ ?_, fun hr ↦ ?_, fun _ ↦ rfl, fun _ _ ↦ rfl⟩
      · cases hy
      · rw [hresult] at hr
        cases hr
    · refine .of_none ?_ (fun y hy ↦ Or.inl ?_) rfl
      · simp only [pushResult, hp, hroom, Bool.false_eq_true, if_false]
      · rw [hp]
        exact hy
  | writeSlot =>
    obtain ⟨x, head, hp, rfl⟩ := step_pushWrite h
    refine .of_none rfl (fun y hy ↦ Or.inl ?_) rfl
    rw [hp]
    exact hy
  | storeHead =>
    obtain ⟨x, head, hp, rfl⟩ := step_pushStore h
    obtain ⟨-, hlt, -⟩ := hs.of_storeHead hp
    have hseen := hs.seenTail_le
    have hle := hs.popped_prefix.length_le
    refine ⟨fun y hy ↦ ?_, fun _ ↦ ⟨x, ?_, ?_, ?_⟩, fun hr ↦ absurd rfl hr, fun _ _ ↦ rfl⟩
    · cases hy
    · rw [hp]
      rfl
    · rw [items, List.length_drop]
      omega
    · exact List.drop_append_of_le_length hle

/-- **The accesses of `try_pop`.** -/
theorem pop_access (hs : s.Inv start) {move : PopMove} (h : s.step move.action = some t) :
    PopAccess move s t := by
  cases move with
  | call =>
    obtain ⟨-, rfl⟩ := step_popCall h
    exact .of_ne (fun _ ↦ by simp [popResult]) rfl rfl
  | loadHead j =>
    obtain ⟨tail, head, -, -, -, rfl⟩ := step_popLoadHead h
    exact .of_ne (fun _ ↦ by simp [popResult]) rfl rfl
  | emptyTest =>
    obtain ⟨tail, head, obs, hc, hcases⟩ := step_popTest h
    have hresult : ∀ out, s.popResult .emptyTest ≠ some (some out) := by
      intro out
      simp only [popResult, hc]
      split_ifs <;> simp
    rcases hcases with ⟨-, rfl⟩ | ⟨-, rfl⟩ <;> exact .of_ne hresult rfl rfl
  | readSlot =>
    obtain ⟨tail, -, rfl⟩ := step_popRead h
    exact .of_ne (fun _ ↦ by simp [popResult]) rfl rfl
  | storeTail =>
    obtain ⟨out, tail, hc, rfl⟩ := step_popStore h
    have hresult : s.popResult .storeTail = some (some out) := by simp only [popResult, hc]
    obtain ⟨hlt, hout⟩ := List.getElem?_eq_some_iff.1 (hs.of_storeTail hc).2.2
    have htaken : s.items = out :: s.pushed.drop (s.popped ++ [out]).length := by
      rw [items, List.drop_eq_getElem_cons hlt, hout, List.length_append, List.length_singleton]
    refine ⟨rfl, fun x hr ↦ ?_, fun hr ↦ absurd hresult (hr out)⟩
    rw [hresult, Option.some.injEq, Option.some.injEq] at hr
    exact hr ▸ htaken

end Spsc

end Mdp
