import Mathlib.Data.List.Nodup

/-!
# What is met, in order

A list to which things are added when they are first met (`meet`). What has been met after several
blocks, each of the same thing over and over, is one thing for each block (`meetAll_blocks`).
-/

namespace AnnotationIndex

variable {α β γ : Type} [DecidableEq α]

/-- Adds a thing to those that have been met, unless it is one of them. -/
def meet (met : List α) (a : α) : List α := if a ∈ met then met else met ++ [a]

/-- Adds several things to those that have been met, one after the other. -/
def meetAll (met as : List α) : List α := as.foldl meet met

/-- Nothing more is met in an empty list. -/
@[simp] theorem meetAll_nil (met : List α) : meetAll met [] = met := rfl

/-- The entries are met one after the other. -/
@[simp] theorem meetAll_cons (met : List α) (a : α) (as : List α) :
    meetAll met (a :: as) = meetAll (meet met a) as := rfl

/-- Meeting two lists is meeting the first and then the second. -/
theorem meetAll_append (met as bs : List α) :
    meetAll met (as ++ bs) = meetAll (meetAll met as) bs :=
  List.foldl_append

/-- What is met is added without repetition after what has been met. -/
theorem meetAll_eq (met as : List α) :
    meetAll met as = met ++ (as.filter (· ∉ met)).eraseDups := by
  induction as generalizing met with
  | nil => simp
  | cons a as ih =>
    rw [meetAll_cons, ih, meet]
    by_cases ha : a ∈ met
    · rw [if_pos ha, List.filter_cons_of_neg (by simpa using ha)]
    · rw [if_neg ha, List.filter_cons_of_pos (by simpa using ha), List.eraseDups_cons,
        List.filter_filter, List.append_assoc, List.singleton_append]
      congr 4
      funext b
      simp [and_comm, beq_eq_decide]

/-- What is met in a list, in order, is the list without what is there again. -/
theorem eraseDups_eq_meetAll (as : List α) : as.eraseDups = meetAll [] as := by
  simp [meetAll_eq]

/-- A thing that is met again and again is added once. -/
theorem meetAll_const {a : α} {as : List α} (h : ∀ b ∈ as, b = a) (hne : as ≠ []) (met : List α) :
    meetAll met as = meet met a := by
  obtain ⟨b, as, rfl⟩ := List.exists_cons_of_ne_nil hne
  obtain ⟨rfl, has⟩ := List.forall_mem_cons.1 h
  have hmem : b ∈ meet met b := by
    rw [meet]
    split
    · assumption
    · simp
  rw [meetAll_cons, meetAll_eq, List.filter_eq_nil_iff.2, List.eraseDups_nil, List.append_nil]
  intro c hc
  simpa [has c hc] using hmem

/-- Of blocks in each of which one thing is met, the things that are new are added, unless their
block is empty. -/
theorem meetAll_blocks {bs : List β} (key : β → α) (block : β → List γ)
    (hn : (bs.map key).Nodup) (met : List α) :
    meetAll met (bs.flatMap fun b => (block b).map fun _ => key b) =
      met ++ (bs.filter fun b => key b ∉ met ∧ block b ≠ []).map key := by
  induction bs generalizing met with
  | nil => simp
  | cons b bs ih =>
    obtain ⟨hb, hbs⟩ := List.nodup_cons.1 hn
    rw [List.flatMap_cons, meetAll_append, ih hbs]
    by_cases hnil : block b = []
    · rw [hnil, List.map_nil, meetAll_nil, List.filter_cons_of_neg (by simp [hnil])]
    · rw [meetAll_const (a := key b) (by simp) (by simpa using hnil), meet]
      by_cases hmet : key b ∈ met
      · rw [if_pos hmet, List.filter_cons_of_neg (by simp [hmet])]
      · rw [if_neg hmet, List.filter_cons_of_pos (by simp [hmet, hnil]), List.map_cons,
          List.append_assoc, List.singleton_append]
        congr 3
        refine List.filter_congr fun c hc => ?_
        have hne : key c ≠ key b := fun h => hb (h ▸ List.mem_map_of_mem hc)
        simp [hne]

/-- Blocks that are headed by what is met in them. -/
theorem meetAll_blocks_self {bs : List α} (block : α → List γ) (hn : bs.Nodup) (met : List α) :
    meetAll met (bs.flatMap fun b => (block b).map fun _ => b) =
      met ++ bs.filter fun b => b ∉ met ∧ block b ≠ [] := by
  simpa using meetAll_blocks id block (by simpa using hn) met

/-- Things that are all different are all added to nothing. -/
theorem meetAll_of_nodup {as : List α} (h : as.Nodup) : meetAll [] as = as := by
  simpa using meetAll_blocks_self (fun _ => [()]) h []

end AnnotationIndex
