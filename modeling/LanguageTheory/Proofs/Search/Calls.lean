import LanguageTheory.Proofs.Collections.Indexing
import LanguageTheory.Proofs.Search.Reachability
import LanguageTheory.Search.Calls

/-!
# What a queue answers

After any calls a queue lists the distinct items that were ever added, in the order in which they
were added first, and a front part of them has been taken out in this order. All that a call is
answered follows from the calls before it.
-/

namespace LanguageTheory.Agenda

universe u

variable {α : Type u}

/-! ### Calls and answers -/

/-- The items that a call adds. -/
def Call.added : Call α → List α
  | .push x => [x]
  | .pushMany xs => xs
  | .intern x => [x]
  | .pop => []

/-- The items that are taken out with an answer, which are one or none. -/
def Answer.taken : Answer α → List α
  | .item x? => x?.toList
  | _ => []

/-- The items that calls add, in order, with repetitions. -/
def added (calls : List (Call α)) : List α := calls.flatMap Call.added

/-- First calls add their items before the last calls. -/
theorem added_append (first last : List (Call α)) :
    added (first ++ last) = added first ++ added last := List.flatMap_append

/-- Taking items out adds none. -/
theorem added_replicate_pop (n : Nat) : added (List.replicate n (.pop : Call α)) = [] := by
  simp [added, Call.added]

variable [DecidableEq α] [Hashable α] {q : Agenda α} {x : α} {xs ys : List α}

/-- The queue after calls on a queue that never held an item. -/
def after (calls : List (Call α)) : Agenda α := ((∅ : Agenda α).performAll calls).2

/-- The answers to calls on a queue that never held an item. -/
def answers (calls : List (Call α)) : List (Answer α) := ((∅ : Agenda α).performAll calls).1

/-- The items that calls take out, in order. -/
def popped (calls : List (Call α)) : List α := (answers calls).flatMap Answer.taken

/-- The items that are taken out when as many calls as items wait take out one item each. -/
def drained (calls : List (Call α)) : List α :=
  popped (calls ++ List.replicate (after calls).size .pop)

/-- The last calls are carried out on the queue that the first calls leave. -/
theorem performAll_append (q : Agenda α) (first last : List (Call α)) :
    q.performAll (first ++ last) =
      ((q.performAll first).1 ++ ((q.performAll first).2.performAll last).1,
        ((q.performAll first).2.performAll last).2) := by
  induction first generalizing q with
  | nil => rfl
  | cons call calls ih => simp [performAll, ih]

/-- Every call is answered. -/
theorem length_performAll (q : Agenda α) (calls : List (Call α)) :
    (q.performAll calls).1.length = calls.length := by
  induction calls generalizing q with
  | nil => rfl
  | cons call calls ih => simp [performAll, ih]

/-- A call is answered by the queue that the calls before it leave. -/
theorem getElem?_answers (before later : List (Call α)) (call : Call α) :
    (answers (before ++ call :: later))[before.length]? = some ((after before).perform call).1 := by
  rw [answers, performAll_append]
  have hlength := length_performAll (∅ : Agenda α) before
  rw [List.getElem?_append_right (by omega), hlength, Nat.sub_self]
  rfl

/-! ### Listed items -/

omit [Hashable α] in
/-- More items are listed behind those that were listed before. -/
theorem prefix_eraseDups_append (xs ys : List α) : xs.eraseDups <+: (xs ++ ys).eraseDups := by
  rw [List.eraseDups_append]
  exact List.prefix_append _ _

omit [Hashable α] in
/-- One more item is listed last, unless it was listed before. -/
theorem eraseDups_append_singleton (xs : List α) (x : α) :
    (xs ++ [x]).eraseDups = if x ∈ xs then xs.eraseDups else xs.eraseDups ++ [x] := by
  rw [List.eraseDups_append]
  by_cases h : x ∈ xs <;> simp [List.removeAll, List.eraseDups_cons, h]

/-- What a queue lists after a push. -/
theorem visited_push (q : Agenda α) (x : α) :
    (q.push x).visited = if x ∈ q.visited then q.visited else q.visited ++ [x] := by
  by_cases h : x ∈ q.visited
  · rw [push_of_mem h, if_pos h]
  · rw [visited_push_of_notMem h, if_neg h]

/-- As many items were taken out as the queue counts. -/
theorem length_taken (q : Agenda α) : q.taken.length = q.next := by
  have hle := q.next_le
  simp only [taken, visited, List.length_take, Array.length_toList]
  omega

/-- Every listed item was taken out or waits. -/
theorem length_taken_add_size (q : Agenda α) : q.taken.length + q.size = q.visited.length := by
  have hle := q.next_le
  rw [length_taken, size, visited, Array.length_toList]
  omega

/-- A queue tells whether an item was listed before it takes it in. -/
theorem offer_eq (q : Agenda α) (x : α) : q.offer x = (decide (x ∉ q.visited), q.push x) := by
  unfold offer
  cases h : q.index[x]? with
  | some i =>
    have hx : x ∈ q.visited := List.mem_of_getElem? (idxOf?_eq_some_iff.mp h)
    simp [hx, push_of_mem hx]
  | none =>
    have hx : x ∉ q.visited := idxOf?_eq_none_iff.mp h
    simp [hx]

/-- The place of an item is where it is listed afterwards. -/
theorem exists_intern_eq (q : Agenda α) (x : α) :
    ∃ i, q.intern x = (i, q.push x) ∧ (q.push x).visited[i]? = some x :=
  ⟨(q.intern x).1, Prod.ext rfl (snd_intern q x), getElem?_visited_push q x⟩

/-- An item is taken out exactly if one waits, and it is the first one listed that was not. -/
theorem pop?_cases (q : Agenda α) :
    (q.pop? = none ∧ q.size = 0 ∧ q.visited[q.taken.length]? = none) ∨
      ∃ x r, q.pop? = some (x, r) ∧ q.visited[q.taken.length]? = some x ∧
        r.visited = q.visited ∧ r.taken = q.taken ++ [x] := by
  have hcount := length_taken_add_size q
  cases hpop : q.pop? with
  | none =>
    have htaken := taken_of_pop?_eq_none hpop
    rw [htaken] at hcount ⊢
    exact .inl ⟨rfl, by omega, List.getElem?_eq_none (Nat.le_refl _)⟩
  | some p =>
    obtain ⟨x, r⟩ := p
    have hpeek : q.items[q.next]? = some x := peek?_of_pop? hpop
    refine .inr ⟨x, r, rfl, ?_, visited_of_pop? hpop, taken_of_pop? hpop⟩
    rw [length_taken, visited, Array.getElem?_toList, hpeek]

/-! ### One call -/

/-- What a queue knows after items were added and taken out: it lists the distinct items that were
added, in the order in which they were added first. -/
structure Recalls (q : Agenda α) (added taken : List α) : Prop where
  visited_eq : q.visited = added.eraseDups
  taken_eq : q.taken = taken

namespace Recalls

/-- A queue that never held an item. -/
theorem empty : Recalls (∅ : Agenda α) [] [] := ⟨rfl, rfl⟩

/-- A queue that takes an item in. -/
theorem push (h : Recalls q xs ys) (x : α) : Recalls (q.push x) (xs ++ [x]) ys := by
  constructor
  · rw [visited_push, eraseDups_append_singleton, h.visited_eq]
    simp only [List.mem_eraseDups]
  · rw [taken_push, h.taken_eq]

/-- A queue that takes several items in. -/
theorem pushMany (h : Recalls q xs ys) (zs : List α) :
    Recalls (q.pushMany zs) (xs ++ zs) ys := by
  induction zs generalizing q xs with
  | nil => simpa [Agenda.pushMany] using h
  | cons z zs ih =>
    rw [List.append_cons]
    exact ih (h.push z)

/-- A queue that carries a call out. -/
theorem perform (h : Recalls q xs ys) (call : Call α) :
    Recalls (q.perform call).2 (xs ++ call.added) (ys ++ (q.perform call).1.taken) := by
  cases call with
  | push x => simpa [Agenda.perform, offer_eq, Call.added, Answer.taken] using h.push x
  | pushMany zs => simpa [Agenda.perform, Call.added, Answer.taken] using h.pushMany zs
  | intern x =>
    obtain ⟨i, hi, _⟩ := exists_intern_eq q x
    simpa [Agenda.perform, hi, Call.added, Answer.taken] using h.push x
  | pop =>
    rcases pop?_cases q with ⟨hpop, _⟩ | ⟨x, r, hpop, _, hvisited, htaken⟩
    · simpa [Agenda.perform, hpop, Call.added, Answer.taken] using h
    · simp only [Agenda.perform, hpop, Call.added, Answer.taken, List.append_nil,
        Option.toList_some]
      exact ⟨hvisited.trans h.visited_eq, by rw [htaken, h.taken_eq]⟩

/-- A queue that carries calls out. -/
theorem performAll (h : Recalls q xs ys) (calls : List (Call α)) :
    Recalls (q.performAll calls).2 (xs ++ added calls)
      (ys ++ (q.performAll calls).1.flatMap Answer.taken) := by
  induction calls generalizing q xs ys with
  | nil => simpa [Agenda.performAll, added] using h
  | cons call calls ih =>
    have hcalls := ih (h.perform call)
    simpa [Agenda.performAll, added, List.append_assoc] using hcalls

/-- An item is new if it was not added before. -/
theorem answer_push (h : Recalls q xs ys) (x : α) :
    (q.perform (.push x)).1 = .isNew (decide (x ∉ xs)) := by
  simp [Agenda.perform, offer_eq, h.visited_eq]

/-- The place of an item is the one at which it is listed among the distinct items. -/
theorem answer_intern (h : Recalls q xs ys) (x : α) :
    ∃ i, (q.perform (.intern x)).1 = .place i ∧ (xs ++ [x]).eraseDups[i]? = some x := by
  obtain ⟨i, hintern, hi⟩ := exists_intern_eq q x
  refine ⟨i, by simp [Agenda.perform, hintern], ?_⟩
  rwa [← (h.push x).visited_eq]

/-- The first item that was not taken out is taken out. -/
theorem answer_pop (h : Recalls q xs ys) :
    (q.perform .pop).1 = .item xs.eraseDups[ys.length]? := by
  rw [← h.visited_eq, ← h.taken_eq]
  rcases pop?_cases q with ⟨hpop, _, hnone⟩ | ⟨x, r, hpop, hsome, _⟩
  · simp [Agenda.perform, hpop, hnone]
  · simp [Agenda.perform, hpop, hsome]

end Recalls

/-- What a queue knows after calls. -/
theorem recalls_after (calls : List (Call α)) :
    Recalls (after calls) (added calls) (popped calls) := by
  have h := Recalls.empty.performAll calls
  rwa [List.nil_append, List.nil_append] at h

/-! ### All calls -/

/-- When nothing waits, every listed item was taken out. -/
theorem taken_of_size_eq_zero (h : q.size = 0) : q.taken = q.visited := by
  have hcount := length_taken_add_size q
  have hfront : q.taken <+: q.visited := List.take_prefix q.next q.visited
  exact hfront.eq_of_length (by omega)

/-- As many items are taken out as are asked for, as long as items wait. -/
theorem size_performAll_replicate_pop (q : Agenda α) (n : Nat) :
    (q.performAll (List.replicate n .pop)).2.size = q.size - n := by
  induction n generalizing q with
  | zero => rfl
  | succ n ih =>
    rw [List.replicate_succ]
    rcases pop?_cases q with ⟨hpop, hsize, _⟩ | ⟨x, r, hpop, _⟩
    · simp [performAll, perform, hpop, ih, hsize]
    · have hsize := size_of_pop? hpop
      simp only [performAll, perform, hpop, ih]
      omega

/-- If items are taken out until none waits, then all that were added are taken out. -/
theorem drained_eq (calls : List (Call α)) : drained calls = (added calls).eraseDups := by
  have hrecalls := recalls_after (calls ++ List.replicate (after calls).size .pop)
  have hsize : (after (calls ++ List.replicate (after calls).size .pop)).size = 0 := by
    rw [after, performAll_append]
    exact (size_performAll_replicate_pop _ _).trans (Nat.sub_self _)
  rw [drained, ← hrecalls.taken_eq, taken_of_size_eq_zero hsize, hrecalls.visited_eq, added_append,
    added_replicate_pop, List.append_nil]

/-- No item is counted twice. -/
theorem nodup_eraseDups_added (calls : List (Call α)) : (added calls).eraseDups.Nodup := by
  rw [← (recalls_after calls).visited_eq]
  exact nodup_visited (after calls)

/-- The items that were taken out are a front part of the distinct items. -/
theorem isPrefix_popped (calls : List (Call α)) : popped calls <+: (added calls).eraseDups := by
  rw [← (recalls_after calls).visited_eq, ← (recalls_after calls).taken_eq]
  exact List.take_prefix _ _

/-- The distinct items were taken out or wait. -/
theorem length_popped_add_size (calls : List (Call α)) :
    (popped calls).length + (after calls).size = (added calls).eraseDups.length := by
  rw [← (recalls_after calls).visited_eq, ← (recalls_after calls).taken_eq]
  exact length_taken_add_size (after calls)

/-- An interned item is answered by its place among the distinct items, which it keeps. -/
theorem exists_place (before later : List (Call α)) (x : α) :
    ∃ i, (answers (before ++ .intern x :: later))[before.length]? = some (.place i) ∧
      ∀ j, (added (before ++ .intern x :: later)).eraseDups[j]? = some x ↔ j = i := by
  obtain ⟨i, hanswer, hi⟩ := (recalls_after before).answer_intern x
  have hadded : added (before ++ .intern x :: later) = added before ++ [x] ++ added later := by
    simp [added, Call.added]
  have hplace : (added (before ++ .intern x :: later)).eraseDups[i]? = some x := by
    rw [hadded]
    exact getElem?_eq_some_of_isPrefix (prefix_eraseDups_append _ _) hi
  refine ⟨i, by rw [getElem?_answers, hanswer], fun j ↦ ⟨fun hj ↦ ?_, fun hj ↦ hj ▸ hplace⟩⟩
  have hlt := (List.getElem?_eq_some_iff.mp hj).1
  exact (List.getElem?_inj hlt (nodup_eraseDups_added _)).mp (hj.trans hplace.symm)

/-- How a queue that never held an item answers calls. The distinct items that are added are taken
out in the order in which they are added first, the rest of them waits, and each of them is taken
out at last. A push is answered by whether its item was not added before, an interned item by the
place at which it was or will be taken out, and a call for an item by the first one that waits. -/
structure InOrder (calls : List (Call α)) : Prop where
  popped_prefix : popped calls <+: (added calls).eraseDups
  nodup_popped : (popped calls).Nodup
  drained_eq : drained calls = (added calls).eraseDups
  visited_eq : (after calls).visited = (added calls).eraseDups
  length_add_size : (popped calls).length + (after calls).size = (added calls).eraseDups.length
  isNew : ∀ before x later, calls = before ++ .push x :: later →
    (answers calls)[before.length]? = some (.isNew (decide (x ∉ added before)))
  place : ∀ before x later, calls = before ++ .intern x :: later →
    ∃ i, (answers calls)[before.length]? = some (.place i) ∧
      (∀ j, (popped calls)[j]? = some x → j = i) ∧ ∀ j, (drained calls)[j]? = some x ↔ j = i
  item : ∀ before later, calls = before ++ .pop :: later →
    (answers calls)[before.length]? =
      some (.item (added before).eraseDups[(popped before).length]?)

/-- Every queue answers all calls in order. -/
theorem answers_inOrder (calls : List (Call α)) : InOrder calls := by
  have hfront := isPrefix_popped calls
  have hvisited := (recalls_after calls).visited_eq
  refine ⟨hfront, (nodup_eraseDups_added calls).sublist hfront.sublist, drained_eq calls, hvisited,
    length_popped_add_size calls, ?_, ?_, ?_⟩
  · rintro before x later rfl
    rw [getElem?_answers, (recalls_after before).answer_push]
  · rintro before x later rfl
    obtain ⟨i, hanswer, hplace⟩ := exists_place before later x
    refine ⟨i, hanswer, fun j hj ↦ ?_, ?_⟩
    · exact (hplace j).mp (getElem?_eq_some_of_isPrefix hfront hj)
    · rw [drained_eq]
      exact hplace
  · rintro before later rfl
    rw [getElem?_answers, (recalls_after before).answer_pop]

/-- Items that come back, before or after they were taken out, keep their places. -/
example : answers [.push 3, .push 1, .push 3, .pop, .pushMany [1, 2, 3], .pop, .pop, .intern 1,
      .intern 7, .pop, .pop] =
    [.isNew true, .isNew true, .isNew false, .item (some 3), .done, .item (some 1),
      .item (some 2), .place 1, .place 3, .item (some 7), .item none] := by cbv

end LanguageTheory.Agenda
