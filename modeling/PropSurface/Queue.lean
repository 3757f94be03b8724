/-!
# Queues

First in, first out, on two lists: `front` is in order, `back` holds the entries that
came in since, latest first.  When the front runs out, the back is turned round, so
that a run over a queue takes time in proportion to its entries.

**View.**  `toList` lists the entries in the order in which they leave.  The lemmas say
what each operation does to that list, and nothing else about a queue can be seen.
-/

namespace PropSurface

universe u

structure Queue (α : Type u) where
  front : List α
  back : List α

namespace Queue

variable {α : Type u}

/-- The entries, in the order in which they leave. -/
def toList (q : Queue α) : List α := q.front ++ q.back.reverse

/-- The queue with the given entries. -/
def ofList (xs : List α) : Queue α := ⟨xs, []⟩

/-- Let entries come in, one after the other. -/
def pushAll (q : Queue α) (xs : List α) : Queue α := ⟨q.front, xs.reverse ++ q.back⟩

/-- Keep the entries with a property. -/
def filter (q : Queue α) (p : α → Bool) : Queue α := ⟨q.front.filter p, q.back.filter p⟩

/-- The entry that leaves next, and the queue without it. -/
def pop? (q : Queue α) : Option (α × Queue α) :=
  match q.front with
  | x :: rest => some (x, ⟨rest, q.back⟩)
  | [] =>
      match q.back.reverse with
      | [] => none
      | x :: rest => some (x, ⟨rest, []⟩)

@[simp] theorem toList_ofList (xs : List α) : (ofList xs).toList = xs := by
  simp [ofList, toList]

@[simp] theorem toList_pushAll (q : Queue α) (xs : List α) :
    (q.pushAll xs).toList = q.toList ++ xs := by
  simp [pushAll, toList]

@[simp] theorem toList_filter (q : Queue α) (p : α → Bool) :
    (q.filter p).toList = q.toList.filter p := by
  simp [filter, toList]

/-- Only the empty queue has no next entry. -/
theorem pop?_eq_none_iff {q : Queue α} : q.pop? = none ↔ q.toList = [] := by
  rcases q with ⟨_ | ⟨x, rest⟩, back⟩
  · cases h : back.reverse with
    | nil => simp [pop?, toList, h]
    | cons y ys => simp [pop?, toList, h]
  · simp [pop?, toList]

/-- The next entry is the first one, and the others stay as they are. -/
theorem toList_eq_cons_of_pop? {q q' : Queue α} {x : α} (h : q.pop? = some (x, q')) :
    q.toList = x :: q'.toList := by
  rcases q with ⟨_ | ⟨y, rest⟩, back⟩
  · cases hback : back.reverse with
    | nil => simp [pop?, hback] at h
    | cons y ys =>
        simp only [pop?, hback, Option.some.injEq, Prod.mk.injEq] at h
        obtain ⟨rfl, rfl⟩ := h
        simp [toList, hback]
  · simp only [pop?, Option.some.injEq, Prod.mk.injEq] at h
    obtain ⟨rfl, rfl⟩ := h
    simp [toList]

end Queue

end PropSurface
