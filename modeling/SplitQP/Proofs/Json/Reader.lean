import Mathlib.Data.Nat.Notation
import Mathlib.Tactic.Common
import SplitQP.Proofs.Answers
import SplitQP.Json.Typed
import SplitQP.Json.Writer
/-!
# Reading what was written

A value that was written stands before a comma or a closing bracket, or at
the end. What a reader makes of it there is its answer to the text
(`Answers`). A list is answered as its elements are, one after the other,
up to the first that is not answered (`answers_list`).
-/

namespace SplitQP

namespace Reader

variable {β γ : Type} {r : Reader β} {f : β → Reader γ} {cs rest : List Char} {b : β} {c : Char}
variable {e : JsonError}

/-! ## One step after the other -/

theorem bind_of_ok (h : r cs = .ok (b, rest)) : (r >>= f) cs = f b rest := by
  show (r cs >>= fun x => f x.1 x.2) = f b rest
  rw [h]
  rfl

theorem bind_of_error (h : r cs = .error e) : (r >>= f) cs = .error e := by
  show (r cs >>= fun x => f x.1 x.2) = .error e
  rw [h]
  rfl

/-- What may follow a value, or nothing. -/
def Ends (rest : List Char) : Prop := ∀ c ∈ rest.head?, c = ',' ∨ c = ']' ∨ c = '}'

/-- **The reader answers `outcome` on the text,** whatever it is followed by. -/
def Answers (r : Reader β) (text : List Char) (outcome : Except JsonError β) : Prop :=
  ∀ rest, Ends rest → r (text ++ rest) = outcome.map (·, rest)

/-! ## Single characters and words -/

theorem peek_run (cs : List Char) :
    peek cs = .ok ((cs.dropWhile isBlank).head?, cs.dropWhile isBlank) := rfl

theorem peekOr_cons (hc : isBlank c = false) (e : JsonError) (cs : List Char) :
    peekOr e (c :: cs) = .ok (c, c :: cs) := by
  rw [peekOr, bind_of_ok (peek_run _), List.dropWhile_cons_of_neg (by simp [hc])]
  rfl

theorem advance_cons : advance (c :: cs) = .ok ((), cs) := rfl

theorem takeIf_of_pos {p : Char → Bool} (h : p c = true) : takeIf p (c :: cs) = .ok (true, cs) := by
  rw [takeIf, bind_of_ok (rfl : (get : Reader _) (c :: cs) = .ok (c :: cs, c :: cs))]
  simp only [h, if_true]
  rfl

theorem takeIf_of_neg {p : Char → Bool} (h : ∀ c ∈ cs.head?, p c = false) :
    takeIf p cs = .ok (false, cs) := by
  rw [takeIf, bind_of_ok (rfl : (get : Reader _) cs = .ok (cs, cs))]
  cases cs with
  | nil => rfl
  | cons c cs =>
    simp only [h c rfl]
    rfl

/-- A word that comes next is taken. -/
theorem word_append (w cs : List Char) : word w (w ++ cs) = .ok ((), cs) := by
  induction w with
  | nil => rfl
  | cons c w ih =>
    rw [word, bind_of_ok (rfl : (get : Reader _) (c :: w ++ cs) = .ok (c :: w ++ cs, c :: w ++ cs))]
    simp only [List.cons_append, if_true]
    rw [bind_of_ok (rfl : (set (w ++ cs) : Reader _) _ = .ok (⟨⟩, w ++ cs))]
    exact ih

/-! ## Lists -/

/-- A value begins like this. -/
def Begins (text : List Char) : Prop := ∃ c cs, text = c :: cs ∧ isBlank c = false ∧ c ≠ ']'

theorem hasElement_close (first : Bool) (rest : List Char) :
    hasElement first (']' :: rest) = .ok (false, ']' :: rest) := by
  rw [hasElement, bind_of_ok (peekOr_cons rfl _ _), if_pos rfl]
  rfl

theorem hasElement_first (hc : isBlank c = false) (hclose : c ≠ ']') :
    hasElement true (c :: cs) = .ok (true, c :: cs) := by
  rw [hasElement, bind_of_ok (peekOr_cons hc _ _), if_neg hclose]
  rfl

theorem hasElement_comma (hc : isBlank c = false) (hclose : c ≠ ']') :
    hasElement false (',' :: c :: cs) = .ok (true, c :: cs) := by
  rw [hasElement, bind_of_ok (peekOr_cons rfl _ _), if_neg (by decide), if_neg (by decide),
    if_pos rfl, bind_of_ok advance_cons, bind_of_ok (peekOr_cons hc _ _), if_neg hclose]
  rfl

theorem closeArray_cons (rest : List Char) : closeArray (']' :: rest) = .ok ((), rest) := by
  rw [closeArray, bind_of_ok (peekOr_cons rfl _ _), if_pos rfl]
  rfl

theorem ends_nil : Ends [] := by simp [Ends]

theorem ends_comma (cs : List Char) : Ends (',' :: cs) := by simp [Ends]

theorem ends_close (cs : List Char) : Ends (']' :: cs) := by simp [Ends]

theorem ends_brace (cs : List Char) : Ends ('}' :: cs) := by simp [Ends]

variable {α : Type} {item : Reader β} {write : α → List Char} {value : α → Except JsonError β}

/-- Texts one behind the other, each with a comma before it. -/
def behind (texts : List (List Char)) : List Char := texts.flatMap (',' :: ·)

theorem commas_cons (t : List Char) (ts : List (List Char)) :
    JsonWriter.commas (t :: ts) = t ++ behind ts := by
  induction ts generalizing t with
  | nil =>
    rw [behind, List.flatMap_nil, List.append_nil]
    rfl
  | cons t' ts ih =>
    rw [JsonWriter.commas, ih, behind, behind, List.flatMap_cons]
    · rfl
    · exact fun h => nomatch h

theorem ends_behind (ts : List (List Char)) (h : Ends rest) : Ends (behind ts ++ rest) := by
  cases ts with
  | nil => exact h
  | cons t ts => exact ends_comma _

/-- One element and those behind it. -/
theorem elements_of_hasElement {fuel : ℕ} {first : Bool} {text : List Char} {x : α} {xs : List α}
    (hhas : hasElement first text = .ok (true, write x ++ (behind (xs.map write) ++ ']' :: rest)))
    (hx : Answers item (write x) (value x))
    (hxs : elements item fuel false (behind (xs.map write) ++ ']' :: rest) =
      (xs.mapM value).map (·, ']' :: rest)) :
    elements item (fuel + 1) first text = ((x :: xs).mapM value).map (·, ']' :: rest) := by
  have hitem := hx (behind (xs.map write) ++ ']' :: rest) (ends_behind _ (ends_close rest))
  rw [elements, bind_of_ok hhas, if_pos rfl, List.mapM_cons]
  cases hvalue : value x with
  | error e =>
    rw [hvalue] at hitem
    rw [bind_of_error hitem]
    rfl
  | ok b =>
    rw [hvalue] at hitem
    rw [bind_of_ok hitem]
    cases hvalues : xs.mapM value with
    | error e =>
      rw [hvalues] at hxs
      rw [bind_of_error hxs]
      rfl
    | ok bs =>
      rw [hvalues] at hxs
      rw [bind_of_ok hxs]
      rfl

/-- The elements behind the first. -/
theorem elements_behind {fuel : ℕ} {xs : List α} (hfuel : xs.length < fuel)
    (h : ∀ x ∈ xs, Begins (write x) ∧ Answers item (write x) (value x)) (rest : List Char) :
    elements item fuel false (behind (xs.map write) ++ ']' :: rest) =
      (xs.mapM value).map (·, ']' :: rest) := by
  induction xs generalizing fuel with
  | nil =>
    cases fuel with
    | zero => cases hfuel
    | succ fuel =>
      rw [elements]
      exact bind_of_ok (hasElement_close false rest)
  | cons x xs ih =>
    cases fuel with
    | zero => cases hfuel
    | succ fuel =>
      obtain ⟨⟨c, cs, hwrite, hblank, hclose⟩, hx⟩ := h x List.mem_cons_self
      refine elements_of_hasElement ?_ hx
        (ih (Nat.lt_of_succ_lt_succ hfuel) fun y hy => h y (List.mem_cons_of_mem x hy))
      rw [List.map_cons, behind, List.flatMap_cons, hwrite]
      simp only [List.cons_append, List.append_assoc]
      exact hasElement_comma hblank hclose

/-- There is at least a comma of each. -/
theorem length_le_behind (ts : List (List Char)) : ts.length ≤ (behind ts).length := by
  induction ts with
  | nil => exact Nat.le_refl 0
  | cons t ts ih =>
    rw [behind, List.flatMap_cons, List.length_append, List.length_cons, List.length_cons]
    rw [behind] at ih
    omega

/-- All elements, with as much fuel as there is text. -/
theorem elements_commas {xs : List α}
    (h : ∀ x ∈ xs, Begins (write x) ∧ Answers item (write x) (value x)) (rest : List Char) :
    let text := JsonWriter.commas (xs.map write) ++ ']' :: rest
    elements item (text.length + 1) true text = (xs.mapM value).map (·, ']' :: rest) := by
  cases xs with
  | nil => exact bind_of_ok (hasElement_close true rest)
  | cons x xs =>
    obtain ⟨⟨c, cs, hwrite, hblank, hclose⟩, hx⟩ := h x List.mem_cons_self
    have hlength := length_le_behind (xs.map write)
    simp only [List.map_cons, commas_cons, List.append_assoc]
    refine elements_of_hasElement ?_ hx (elements_behind ?_ (fun y hy =>
      h y (List.mem_cons_of_mem x hy)) rest)
    · rw [hwrite]
      exact hasElement_first hblank hclose
    · rw [List.length_map] at hlength
      rw [hwrite, List.length_append, List.length_append, List.length_cons]
      omega

/-- **A list is read as its elements are.** -/
theorem answers_list {xs : List α}
    (h : ∀ x ∈ xs, Begins (write x) ∧ Answers item (write x) (value x)) :
    Answers (list item) (JsonWriter.list (xs.map write)) (xs.mapM value) := by
  intro rest _
  have helements := elements_commas h rest
  rw [JsonWriter.list]
  simp only [List.cons_append, List.append_assoc, List.nil_append]
  rw [list, bind_of_ok (peekOr_cons rfl _ _)]
  simp only
  rw [bind_of_ok advance_cons, bind_of_ok (rfl : (get : Reader _) _ = .ok (_, _))]
  cases hvalues : xs.mapM value with
  | error e =>
    rw [hvalues] at helements
    rw [bind_of_error helements]
    rfl
  | ok bs =>
    rw [hvalues] at helements
    rw [bind_of_ok helements, bind_of_ok (closeArray_cons rest)]
    rfl

end Reader

end SplitQP
