import Mathlib

/-!
# Runs and walks

`runs p l` are the maximal runs of elements of `l` without `p`, in
order. A walk goes from node to node by names: `follow` is the node that
is reached, `followParent` the one before it and the last name.
-/

namespace Walks

open List Option

/-! ## Runs -/

section Runs

variable {α : Type} {p : α → Bool} {a : α} {l w r : List α}

def runs (p : α → Bool) (l : List α) : List (List α) := (l.splitOnP p).filter fun w => !w.isEmpty

@[simp] theorem runs_nil : runs p [] = [] := by simp [runs, List.splitOnP_nil]

theorem runs_cons (h : p a = true) : runs p (a :: l) = runs p l := by
  rw [runs, splitOnP_cons_eq_if_modifyHead, if_pos h, filter_cons_of_neg (by simp)]
  rfl

/-- The separators in front do not matter. -/
theorem runs_dropWhile : runs p (l.dropWhile p) = runs p l := by
  induction l with
  | nil => rfl
  | cons a l ih =>
    cases h : p a with
    | true => rw [dropWhile_cons_of_pos h, ih, runs_cons h]
    | false => rw [dropWhile_cons_of_neg (by simp [h])]

/-- A run up to the end or the next separator. -/
theorem runs_append (hw : ∀ x ∈ w, p x = false) (hne : w ≠ []) (hr : ∀ x, r.head? = some x → p x = true) :
    runs p (w ++ r) = w :: runs p r := by
  cases r with
  | nil => simp [runs, splitOnP_eq_singleton hw, splitOnP_nil, hne]
  | cons a r =>
    have ha := hr a rfl
    rw [runs_cons ha, runs, splitOnP_append_cons_of_forall_mem hw a ha]
    exact filter_cons_of_pos (by simpa using hne)

/-- A list that starts with no separator has a run in front. -/
theorem runs_cons_run (h : p a = false) :
    runs p (a :: l) = (a :: l).takeWhile (fun x => !p x) :: runs p ((a :: l).dropWhile fun x => !p x) := by
  have hsplit : (a :: l).takeWhile (fun x => !p x) ++ (a :: l).dropWhile (fun x => !p x) = a :: l :=
    takeWhile_append_dropWhile
  conv_lhs => rw [← hsplit]
  refine runs_append (fun x hx => ?_) ?_ fun x hx => ?_
  · simpa using all_eq_true.mp all_takeWhile x hx
  · simp_all
  · have hstop := head?_dropWhile_not (fun x => !p x) (a :: l)
    rw [hx] at hstop
    simpa using hstop

theorem runs_ne_nil (h : p a = false) : runs p (a :: l) ≠ [] := by simp [runs_cons_run h]

end Runs

/-! ## Walks -/

section Follow

variable {ι κ : Type} (isDir : ι → Prop) [DecidablePred isDir] (entry : ι → κ → Option ι)

/-- The node that is reached: each name is an entry of the node before
it, which is a directory. -/
def follow : List κ → ι → Option ι
  | [], i => some i
  | nm :: names, i => if isDir i then (entry i nm).bind (follow names) else none

/-- The directory that the last name is looked up in, and that name. -/
def followParent (names : List κ) (i : ι) : Option (ι × κ) :=
  names.getLast?.bind fun nm =>
    (follow isDir entry names.dropLast i).bind fun j => if isDir j then some (j, nm) else none

variable {isDir entry} {names as bs : List κ} {i j : ι} {nm : κ}

theorem follow_append : follow isDir entry (as ++ bs) i
    = (follow isDir entry as i).bind (follow isDir entry bs) := by
  induction as generalizing i with
  | nil => rfl
  | cons nm as ih =>
    simp only [cons_append, follow]
    split
    · rw [bind_assoc]
      exact bind_congr fun j _ => ih
    · rfl

/-- A walk fails at a node that is no directory or lacks the name. -/
theorem follow_eq_none : follow isDir entry names i = none
    ↔ ∃ as nm bs j, names = as ++ nm :: bs ∧ follow isDir entry as i = some j
      ∧ (¬isDir j ∨ entry j nm = none) := by
  constructor
  · intro h
    induction names generalizing i with
    | nil => cases h
    | cons nm names ih =>
      rw [follow] at h
      split at h
      · rename_i hdir
        cases hent : entry i nm with
        | none => exact ⟨[], nm, names, i, rfl, rfl, .inr hent⟩
        | some j =>
          rw [hent] at h
          obtain ⟨as, nm', bs, j', rfl, hj', hfail⟩ := ih h
          refine ⟨nm :: as, nm', bs, j', rfl, ?_, hfail⟩
          rw [follow, if_pos hdir, hent]
          exact hj'
      · rename_i hdir
        exact ⟨[], nm, names, i, rfl, rfl, .inl hdir⟩
  · rintro ⟨as, nm, bs, j, rfl, hj, hfail⟩
    rw [follow_append, hj, bind_some, follow]
    grind

theorem followParent_singleton : followParent isDir entry [nm] i = if isDir i then some (i, nm) else none := by
  simp [followParent, follow]

theorem followParent_cons (hne : names ≠ []) : followParent isDir entry (nm :: names) i
    = if isDir i then (entry i nm).bind (followParent isDir entry names) else none := by
  unfold followParent
  rw [getLast?_cons_of_ne_nil hne, dropLast_cons_of_ne_nil hne, getLast?_eq_some_getLast hne]
  simp only [bind_some, follow]
  split
  · rw [bind_assoc]
  · rfl

theorem followParent_eq_none : followParent isDir entry names i = none
    ↔ names = [] ∨ follow isDir entry names.dropLast i = none
      ∨ ∃ j, follow isDir entry names.dropLast i = some j ∧ ¬isDir j := by
  unfold followParent
  rcases eq_nil_or_concat names with rfl | ⟨as, nm, rfl⟩
  · simp
  · rw [concat_eq_append, getLast?_append_of_ne_nil _ (cons_ne_nil _ _), dropLast_concat]
    cases hf : follow isDir entry as i with
    | none => simp
    | some j => simp

theorem followParent_eq_some (h : followParent isDir entry names i = some (j, nm)) :
    follow isDir entry names.dropLast i = some j ∧ isDir j := by
  obtain ⟨nm', -, h⟩ := bind_eq_some_iff.mp h
  obtain ⟨j', hj', h⟩ := bind_eq_some_iff.mp h
  split at h
  · grind
  · cases h

/-- What entries keep, a walk keeps. -/
theorem follow_invariant {I : ι → Prop} (hI : ∀ i nm j, I i → isDir i → entry i nm = some j → I j)
    (hi : I i) (h : follow isDir entry names i = some j) : I j := by
  induction names generalizing i with
  | nil =>
    cases h
    exact hi
  | cons nm names ih =>
    rw [follow] at h
    split at h
    · rename_i hdir
      obtain ⟨k, hent, h⟩ := bind_eq_some_iff.mp h
      exact ih (hI i nm k hi hdir hent) h
    · cases h

/-- The walk along all names ends with the entry of the last. -/
theorem follow_eq_entry (hne : names ≠ []) : follow isDir entry names i
    = (followParent isDir entry names i).bind fun x => entry x.1 x.2 := by
  rcases eq_nil_or_concat names with rfl | ⟨as, nm, rfl⟩
  · exact absurd rfl hne
  · unfold followParent
    rw [concat_eq_append, getLast?_append_of_ne_nil _ (cons_ne_nil _ _), dropLast_concat,
      follow_append]
    cases follow isDir entry as i with
    | none => rfl
    | some j =>
      by_cases hdir : isDir j
      · simp [follow, hdir]
      · simp [follow, hdir]

end Follow

end Walks
