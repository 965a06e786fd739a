namespace TreeDelta

variable {α β : Type}

/-- The row for `a` before the items that gave the row `below`: one cell for each suffix of the
right list, the empty one included. -/
def lengthRow (rel : α → β → Bool) (a : α) : List β → List Nat → List Nat
  | [], _ => [0]
  | b :: bs, below =>
      let row := lengthRow rel a bs below.tail
      (if rel a b then below.tail.headD 0 + 1 else max (below.headD 0) (row.headD 0)) :: row

/-- The rows of the table, one for each suffix of the left list. That of the empty suffix would
hold zeros only and is left out. -/
def lengthRows (rel : α → β → Bool) (bs : List β) : List α → List (List Nat)
  | [] => []
  | a :: as =>
      let rows := lengthRows rel bs as
      lengthRow rel a bs (rows.headD []) :: rows

/-- The walk through two lists and the rows of their table, for at most so many steps. Where the
walk skips an item of the right list, it skips its column. -/
def readChain (rel : α → β → Bool) : Nat → List (List Nat) → List α → List β → List (α × β)
  | steps + 1, row :: rows, a :: as, b :: bs =>
      if rel a b then (a, b) :: readChain rel steps (rows.map List.tail) as bs
      else if row.tail.headD 0 ≤ (rows.headD []).headD 0 then
        readChain rel steps rows as (b :: bs)
      else readChain rel steps ((row :: rows).map List.tail) (a :: as) bs
  | _, _, _, _ => []

/-- A longest chain of related pairs that goes up in both lists. -/
def commonSubsequence (rel : α → β → Bool) (as : List α) (bs : List β) : List (α × β) :=
  readChain rel (as.length + bs.length) (lengthRows rel bs as) as bs

end TreeDelta
