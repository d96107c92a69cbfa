import AnnotationIndex.Annotation.Basic
import AnnotationIndex.Proofs.Token.Scan

/-!
# Words

A word is a text of word characters (`IsWord`), and an identifier a word that starts as identifiers
do (`IsIdentifier`). A word is scanned as one lexeme (`IsWord.scans`). The rest of the module has
the usual ways in which two pieces of a line stay apart: one of them ends or begins with a space or
a symbol.
-/

namespace AnnotationIndex

open Text

/-- The text is made of word characters. -/
structure IsWord (s : String) : Prop where
  nonempty : s.toList ≠ []
  chars : ∀ c ∈ s.toList, isWordChar c = true

/-- The word may name something. -/
structure IsIdentifier (s : String) : Prop extends IsWord s where
  starts : isIdentifier s = true

/-- A text is a word when it is not empty and has word characters only. -/
theorem isWord_iff {s : String} : IsWord s ↔ s.toList ≠ [] ∧ s.toList.all isWordChar = true :=
  ⟨fun h => ⟨h.nonempty, List.all_eq_true.2 h.chars⟩, fun h => ⟨h.1, List.all_eq_true.1 h.2⟩⟩

/-- An identifier is a word that a reader takes for one. -/
theorem isIdentifier_iff {s : String} : IsIdentifier s ↔ IsWord s ∧ isIdentifier s = true :=
  ⟨fun h => ⟨h.toIsWord, h.starts⟩, fun h => ⟨h.1, h.2⟩⟩

/-- Whether a text is a word can be computed. -/
instance (s : String) : Decidable (IsWord s) := decidable_of_iff _ isWord_iff.symm

/-- Whether a text is an identifier can be computed. -/
instance (s : String) : Decidable (IsIdentifier s) := decidable_of_iff _ isIdentifier_iff.symm

/-- A word is one lexeme. -/
theorem IsWord.scans {s : String} (h : IsWord s) : Scans s.toList [.word s] := by
  have := Scans.word h.nonempty h.chars (by simp) .nil
  rwa [List.append_nil, String.ofList_toList] at this

/-- A symbol other than a slash is one lexeme wherever it stands. -/
theorem Scans.cons_symbol {c : Char} {cs : List Char} {L : List Lexeme} (h : Scans cs L)
    (hc : isSymbol c = true) (hs : c ≠ '/') : Scans (c :: cs) (.symbol c :: L) :=
  .symbol hc (fun h => absurd h hs) h

/-- A space is scanned as nothing. -/
theorem Scans.cons_space {cs : List Char} {L : List Lexeme} (h : Scans cs L) :
    Scans (' ' :: cs) L :=
  .blank (by decide) (by decide) h

/-- Closed facts about characters, by evaluation. -/
theorem isSymbol_of_mem {c : Char}
    (h : c ∈ ['.', ',', ':', '=', '@', '&', '#', '+', '*', '(', ')', '[', ']', '<', '>', '?',
      '\x7b', '\x7d']) : isSymbol c = true ∧ c ≠ '/' := by
  simp only [List.mem_cons, List.not_mem_nil, or_false] at h
  rcases h with rfl | rfl | rfl | rfl | rfl | rfl | rfl | rfl | rfl | rfl | rfl | rfl | rfl | rfl |
    rfl | rfl | rfl | rfl <;> decide

/-- A symbol is not a word character. -/
theorem isWordChar_eq_false_of_isSymbol {c : Char} (h : isSymbol c = true) :
    isWordChar c = false := by
  simp only [isSymbol, Bool.and_eq_true, Bool.not_eq_true'] at h
  exact h.1.1.1

/-! ## Pieces that stay apart -/

/-- What begins with a symbol other than a slash stays apart from everything before it. -/
theorem Apart.symbol_right {d : Char} (hd : isSymbol d = true) (hs : d ≠ '/') (cs ds : List Char) :
    Apart cs (d :: ds) := by
  intro c _ d' hd'
  obtain rfl : d = d' := by simpa using hd'
  exact ⟨fun h => by simp [isWordChar_eq_false_of_isSymbol hd] at h, fun h => hs h.2⟩

/-! ## Putting a line together -/

/-- A space between two pieces. -/
theorem Scans.append_space {cs ds : List Char} {L M : List Lexeme} (h : Scans cs L)
    (h' : Scans ds M) : Scans (cs ++ ' ' :: ds) (L ++ M) :=
  h.append h'.cons_space (.blank_right (by decide) _ _)

/-- A symbol between two pieces. -/
theorem Scans.append_symbol {c : Char} {cs ds : List Char} {L M : List Lexeme} (h : Scans cs L)
    (hc : isSymbol c = true ∧ c ≠ '/') (h' : Scans ds M) :
    Scans (cs ++ c :: ds) (L ++ .symbol c :: M) :=
  h.append (h'.cons_symbol hc.1 hc.2) (.symbol_right hc.1 hc.2 _ _)

/-! ## Qualified names -/

/-- Words with points between them. -/
def dotted (w : String) (ws : List String) : String := ws.foldl (fun n v => n ++ "." ++ v) w

/-- The lexemes of further parts of a name. -/
def dottedLexemes (ws : List String) : List Lexeme := ws.flatMap fun v => [.symbol '.', .word v]

/-- Identifiers with points between them. -/
def IsName (n : String) : Prop :=
  ∃ w ws, IsIdentifier w ∧ (∀ v ∈ ws, IsIdentifier v) ∧ n = dotted w ws

/-- An identifier is a name. -/
theorem IsIdentifier.isName {w : String} (h : IsIdentifier w) : IsName w :=
  ⟨w, [], h, by simp, rfl⟩

/-- A name with further words behind points is scanned as their lexemes. -/
theorem scans_dotted {n : String} {L : List Lexeme} (h : Scans n.toList L) {ws : List String}
    (hws : ∀ v ∈ ws, IsWord v) : Scans (dotted n ws).toList (L ++ dottedLexemes ws) := by
  induction ws generalizing n L with
  | nil => simpa [dotted, dottedLexemes] using h
  | cons v ws ih =>
    have hv := h.append_symbol (isSymbol_of_mem (c := '.') (by simp))
      (hws v List.mem_cons_self).scans
    have := ih (n := n ++ "." ++ v) (L := L ++ [.symbol '.', .word v]) (by simpa using hv)
      fun u hu => hws u (List.mem_cons_of_mem _ hu)
    simpa [dotted, dottedLexemes] using this

/-- The name of a package: a qualified name, or nothing. -/
def IsPackageName (p : String) : Prop := p = "" ∨ IsName p

/-- No character of a word is a point. -/
theorem IsWord.ne_point {w : String} (h : IsWord w) : ∀ c ∈ w.toList, c ≠ '.' := by
  rintro c hc rfl
  have := h.chars _ hc
  revert this
  decide +kernel

/-- A name is not empty. -/
theorem IsName.ne_empty {n : String} (h : IsName n) : n ≠ "" := by
  obtain ⟨w, ws, hw, -, rfl⟩ := h
  have hlen : ∀ (ws : List String) (w : String), w ≠ "" → dotted w ws ≠ "" := by
    intro ws
    induction ws with
    | nil => exact fun _ hw => hw
    | cons v ws ih => exact fun w _ => ih _ (by simp)
  refine hlen ws w ?_
  rintro rfl
  exact hw.nonempty rfl

/-- A name in a package is split into the package and the name. -/
theorem splitQualified_qualify {p b : String} (hb : IsWord b) :
    splitQualified (qualify p b) = (p, b) := by
  have htake (ds : List Char) {cs : List Char} (h : ∀ c ∈ cs, c ≠ '.')
      (hd : ∀ d ∈ ds.head?, d = '.') :
      (cs ++ ds).takeWhile (· ≠ '.') = cs := by
    rw [List.takeWhile_append_of_pos (by simpa using h)]
    cases ds with
    | nil => simp
    | cons d ds => simp [hd d (by simp)]
  have hrev : ∀ c ∈ b.toList.reverse, c ≠ '.' := fun c hc => hb.ne_point c (List.mem_reverse.1 hc)
  rw [qualify]
  split
  · next hp =>
    have := htake [] hrev (by simp)
    rw [List.append_nil] at this
    simp only [splitQualified, this, List.reverse_reverse, String.ofList_toList]
    rw [Nat.sub_self, Nat.zero_sub, List.take_zero, hp]
  · have hname : (p ++ "." ++ b).toList.reverse = b.toList.reverse ++ '.' :: p.toList.reverse := by
      simp
    have hlen : (p ++ "." ++ b).toList.length - b.toList.length - 1 = p.toList.length := by
      simp only [String.toList_append, List.length_append, show ".".toList.length = 1 from rfl]
      omega
    simp only [splitQualified, hname, htake ('.' :: p.toList.reverse) hrev (by simp),
      List.reverse_reverse, String.ofList_toList, hlen]
    simp

end AnnotationIndex
