import Mathlib.Data.List.Basic

/-!
# Readers that deliver a stream in chunks

A reader is asked for a number of items and delivers some of them, as few as it likes but at
least one while there are any. The end of the stream is an error, which it reports with the
last items or after them. A loop that asks until it has all it wants does not depend on how the
stream is delivered (`readAll_eq`).
-/

namespace ChunkedReader

variable {α : Type}

/-- How a stream ends. -/
inductive Stop where
  | eof
  | other (text : String)
  deriving DecidableEq

/-- How a reader answers: with how many items at most, and, when these are the last ones, whether
it reports the end along with them. -/
structure Chunk where
  size : ℕ
  size_pos : 0 < size
  reportsEnd : Bool

/-- A reader: what is not yet delivered, how the stream ends, and how the calls to come are
answered. -/
structure IoReader (α : Type) where
  rest : List α
  stop : Stop
  chunks : ℕ → Chunk

/-- What a call of `read` returns, and the reader after it. -/
structure Delivery (α : Type) where
  items : List α
  err : Option Stop
  next : IoReader α

namespace IoReader

/-- A call that asks for `len` items. -/
def read (r : IoReader α) (len : ℕ) : Delivery α :=
  let count := min len (r.chunks 0).size
  let rest := r.rest.drop count
  let atEnd := rest.isEmpty && ((r.chunks 0).reportsEnd || (r.rest.isEmpty && decide (0 < len)))
  { items := r.rest.take count
    err := if atEnd then some r.stop else none
    next := { r with rest := rest, chunks := fun i => r.chunks (i + 1) } }

/-- What is delivered, and what is left. -/
theorem items_append_rest (r : IoReader α) (len : ℕ) :
    (r.read len).items ++ (r.read len).next.rest = r.rest :=
  List.take_append_drop _ _

theorem length_items_le (r : IoReader α) (len : ℕ) : (r.read len).items.length ≤ len :=
  Nat.le_trans (List.length_take_le _ _) (Nat.min_le_left _ _)

variable {r : IoReader α}

/-- A call that does not end the loop has delivered something. -/
theorem length_items_pos {len : ℕ} (hlen : (r.read len).items.length ≠ len)
    (herr : (r.read len).err = none) : 0 < (r.read len).items.length := by
  have hlt : (r.read len).items.length < len := Nat.lt_of_le_of_ne (r.length_items_le len) hlen
  have hpos : 0 < len := Nat.lt_of_le_of_lt (Nat.zero_le _) hlt
  have hcount : 0 < min len (r.chunks 0).size := Nat.lt_min.mpr ⟨hpos, (r.chunks 0).size_pos⟩
  rcases List.eq_nil_or_concat r.rest with hnil | ⟨init, last, hrest⟩
  · -- at the end of the stream the call reports it
    have hsome : (r.read len).err = some r.stop := by
      simp [read, hnil, hpos]
    rw [hsome] at herr
    cases herr
  · have hlength : 0 < r.rest.length := by
      rw [hrest, List.length_concat]
      exact Nat.succ_pos _
    have htake : (r.read len).items.length = min (min len (r.chunks 0).size) r.rest.length :=
      List.length_take
    rw [htake]
    exact Nat.lt_min.mpr ⟨hcount, hlength⟩

/-- An error comes with the last items. -/
theorem rest_of_err {len : ℕ} {stop : Stop} (herr : (r.read len).err = some stop) :
    stop = r.stop ∧ (r.read len).next.rest = [] := by
  rw [read] at herr
  dsimp only at herr
  split at herr
  · next hend =>
    rw [Bool.and_eq_true, List.isEmpty_iff] at hend
    exact ⟨(Option.some.inj herr).symm, hend.1⟩
  · cases herr

/-- Calls until `len` items are there; the error of a call that comes before is returned. -/
def readAll (r : IoReader α) (len : ℕ) : Except Stop (List α) × IoReader α :=
  if hlen : (r.read len).items.length = len then (.ok (r.read len).items, (r.read len).next)
  else
    match herr : (r.read len).err with
    | some stop => (.error stop, (r.read len).next)
    | none =>
      have := length_items_pos hlen herr
      have := r.length_items_le len
      let more := (r.read len).next.readAll (len - (r.read len).items.length)
      (more.1.map ((r.read len).items ++ ·), more.2)
termination_by len
decreasing_by omega

/-- **The loop does not depend on the chunks**: it returns the next `len` items if there are so
many, and otherwise how the stream ends. -/
theorem readAll_eq (r : IoReader α) (len : ℕ) :
    (r.readAll len).1 =
        (if len ≤ r.rest.length then .ok (r.rest.take len) else .error r.stop) ∧
      (r.readAll len).2.rest = r.rest.drop len ∧ (r.readAll len).2.stop = r.stop := by
  induction len using Nat.strongRecOn generalizing r with
  | ind len ih =>
    have hsplit := r.items_append_rest len
    have hle := r.length_items_le len
    rw [readAll]
    split
    · next hlen =>
      have hfits : len ≤ r.rest.length := by
        rw [← hsplit, List.length_append]
        omega
      rw [if_pos hfits, ← hsplit, List.take_left' hlen, List.drop_left' hlen]
      exact ⟨rfl, rfl, rfl⟩
    · next hlen =>
      split
      · next stop herr =>
        obtain ⟨rfl, hnil⟩ := rest_of_err herr
        have hshort : r.rest.length < len := by
          rw [← hsplit, hnil, List.append_nil]
          omega
        rw [if_neg (Nat.not_le.mpr hshort), hnil, List.drop_of_length_le (Nat.le_of_lt hshort)]
        exact ⟨rfl, rfl, rfl⟩
      · next herr =>
        have hpos := length_items_pos hlen herr
        obtain ⟨hvalue, hrest, hstop⟩ := ih (len - (r.read len).items.length) (by omega)
          (r.read len).next
        have hlength : r.rest.length =
            (r.read len).items.length + (r.read len).next.rest.length := by
          rw [← List.length_append, hsplit]
        have htake : r.rest.take len = (r.read len).items ++
            (r.read len).next.rest.take (len - (r.read len).items.length) := by
          conv_lhs => rw [← hsplit, List.take_append, List.take_of_length_le hle]
        have hdrop : r.rest.drop len =
            (r.read len).next.rest.drop (len - (r.read len).items.length) := by
          conv_lhs => rw [← hsplit, List.drop_append, List.drop_of_length_le hle, List.nil_append]
        refine ⟨?_, hrest.trans hdrop.symm, hstop⟩
        dsimp only
        rw [hvalue]
        by_cases hfits : len ≤ r.rest.length
        · rw [if_pos hfits, if_pos (by omega), htake]
          rfl
        · rw [if_neg hfits, if_neg (by omega)]
          rfl

/-- What the loop has returned was next in the stream. -/
theorem readAll_eq_ok {r next : IoReader α} {len : ℕ} {items : List α}
    (h : r.readAll len = (.ok items, next)) :
    items.length = len ∧ r.rest = items ++ next.rest ∧ next.stop = r.stop := by
  obtain ⟨hvalue, hrest, hstop⟩ := r.readAll_eq len
  rw [h] at hvalue hrest hstop
  split at hvalue
  · next hfits =>
    obtain rfl := Except.ok.inj hvalue
    refine ⟨List.length_take_of_le hfits, ?_, hstop⟩
    rw [hrest, List.take_append_drop]
  · cases hvalue

theorem readAll_eq_error {r next : IoReader α} {len : ℕ} {stop : Stop}
    (h : r.readAll len = (.error stop, next)) : stop = r.stop ∧ r.rest.length < len := by
  obtain ⟨hvalue, -⟩ := r.readAll_eq len
  rw [h] at hvalue
  split at hvalue
  · cases hvalue
  · next hshort => exact ⟨Except.error.inj hvalue, Nat.not_le.mp hshort⟩

/-- What is next in the stream is returned. -/
theorem readAll_of_append {items tail : List α} (h : r.rest = items ++ tail) :
    ∃ next, r.readAll items.length = (.ok items, next) ∧ next.rest = tail ∧
      next.stop = r.stop := by
  obtain ⟨hvalue, hrest, hstop⟩ := r.readAll_eq items.length
  rw [h, List.take_left, if_pos (by rw [List.length_append]; exact Nat.le_add_right _ _)] at hvalue
  rw [h, List.drop_left] at hrest
  exact ⟨_, Prod.ext hvalue rfl, hrest, hstop⟩

theorem readAll_of_lt {len : ℕ} (h : r.rest.length < len) :
    ∃ next, r.readAll len = (.error r.stop, next) := by
  obtain ⟨hvalue, -⟩ := r.readAll_eq len
  rw [if_neg (Nat.not_le.mpr h)] at hvalue
  exact ⟨_, Prod.ext hvalue rfl⟩

end IoReader

end ChunkedReader
