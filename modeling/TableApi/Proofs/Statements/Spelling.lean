import TableApi.Proofs.Statements.Scanning
import TableApi.Sql.Reference

/-!
# What phrases are scanned as

A phrase spells its identifiers in order, and outside of them fixed words and symbols,
aliases, and a placeholder for each value (`Sql.Phrase.Spells`). Phrases are put together
from shorter ones with fixed texts between them that show a space or a symbol on both
sides, so what the whole spells is what the parts do: `Spells.lead`, `Spells.tail` and
`Spells.glue` have a fixed text in front, behind and between, and `Spells.joined` has one
between each two of a list. That a given text is fixed and shows no part of a token where it
meets the phrases is computed.
-/

namespace TableApi.Sql

namespace Token

/-- The words that statements are made of. -/
def keywords : List String :=
  ["SELECT", "FROM", "AS", "WHERE", "AND", "OR", "LIKE", "ORDER", "BY", "ASC", "DESC", "LIMIT",
    "OFFSET", "INSERT", "INTO", "VALUES", "DELETE"]

/-- The characters of operators and punctuation. -/
def symbols : List Char :=
  ['=', '<', '>', ',', '.', '(', ')']

def name? : Token → Option String
  | identifier name => some name
  | _ => none

/-- Whether a token is a keyword or a symbol. -/
def isFixed : Token → Bool
  | identifier _ => false
  | word text => keywords.contains text
  | symbol c => symbols.contains c

/-- A token is an identifier, or fixed, or one of the first aliases, or a placeholder. -/
def Known (aliases : Nat) (token : Token) : Prop :=
  token.name?.isSome = true ∨ token.isFixed = true ∨ token = symbol '?' ∨
    ∃ i < aliases, token = word (tableAlias i)

/-- Tokens with the given identifiers in order, and otherwise known ones. -/
structure Show (aliases : Nat) (names : List String) (values wheres : Nat)
    (tokens : List Token) : Prop where
  identifiers : tokens.filterMap name? = names
  known : ∀ token ∈ tokens, token.Known aliases
  placeholders : tokens.count (symbol '?') = values
  wheres : tokens.count (word "WHERE") = wheres

theorem Show.append {aliases : Nat} {names others : List String} {values more wheres again : Nat}
    {tokens rest : List Token} (h : Show aliases names values wheres tokens)
    (hrest : Show aliases others more again rest) :
    Show aliases (names ++ others) (values + more) (wheres + again) (tokens ++ rest) where
  identifiers := by rw [List.filterMap_append, h.identifiers, hrest.identifiers]
  known := by
    intro token htoken
    rcases List.mem_append.1 htoken with htoken | htoken
    · exact h.known token htoken
    · exact hrest.known token htoken
  placeholders := by rw [List.count_append, h.placeholders, hrest.placeholders]
  wheres := by rw [List.count_append, h.wheres, hrest.wheres]

end Token

/-- Whether the piece begins with a character that separates. -/
def Piece.opens (piece : Piece) : Bool :=
  piece.sql.toList.head?.any separates

/-- Whether the piece ends with a character that separates. -/
def Piece.closes (piece : Piece) : Bool :=
  piece.sql.toList.getLast?.any separates

section Texts

variable {first second : String}

theorem Piece.opens_append (second : String) (h : (text first).opens = true) :
    (text (first ++ second)).opens = true := by
  obtain ⟨c, hc, hseparates⟩ := (Option.any_eq_true _ _).1 h
  refine (Option.any_eq_true _ _).2 ⟨c, ?_, hseparates⟩
  show (first ++ second).toList.head? = some c
  rw [String.toList_append, List.head?_append, show first.toList.head? = some c from hc]
  rfl

theorem Piece.closes_append (first : String) (h : (text second).closes = true) :
    (text (first ++ second)).closes = true := by
  obtain ⟨c, hc, hseparates⟩ := (Option.any_eq_true _ _).1 h
  refine (Option.any_eq_true _ _).2 ⟨c, ?_, hseparates⟩
  show (first ++ second).toList.getLast? = some c
  rw [String.toList_append, List.getLast?_append, show second.toList.getLast? = some c from hc]
  rfl

/-- Two texts are scanned one after the other where no token runs over the boundary. -/
theorem scan_text_append {tokens others : List Token} (h : scan first = some tokens)
    (hsecond : scan second = some others)
    (hapart : (Piece.text first).closes = true ∨ (Piece.text second).opens = true) :
    scan (first ++ second) = some (tokens ++ others) := by
  rw [scan, String.toList_append]
  refine scan_append h hsecond (hapart.imp (fun hcloses => ?_) fun hopens => ?_)
  · obtain ⟨c, hc, hseparates⟩ := (Option.any_eq_true _ _).1 hcloses
    rw [show first.toList.getLast? = some c from hc]
    exact hseparates
  · obtain ⟨c, hc, hseparates⟩ := (Option.any_eq_true _ _).1 hopens
    rw [show second.toList.head? = some c from hc]
    exact hseparates

end Texts

/-- Whether a text is of fixed words and symbols, with the word WHERE so many times. -/
def isFixed (wheres : Nat) (text : String) : Bool :=
  (scan text).any fun tokens =>
    tokens.all Token.isFixed && tokens.count (.word "WHERE") == wheres

/-- Whether a fixed text can stand in front of anything. -/
def isLead (wheres : Nat) (text : String) : Bool :=
  isFixed wheres text && (Piece.text text).closes

/-- Whether a fixed text can stand behind anything. -/
def isTail (wheres : Nat) (text : String) : Bool :=
  isFixed wheres text && (Piece.text text).opens

/-- Whether a fixed text can stand between any two. -/
def isGlue (wheres : Nat) (text : String) : Bool :=
  isTail wheres text && (Piece.text text).closes

namespace Phrase

/-- Whether no token runs into the phrase from before. -/
def opens (phrase : Phrase) : Bool :=
  phrase.head?.all Piece.opens

/-- Whether no token runs out of the phrase. -/
def closes (phrase : Phrase) : Bool :=
  phrase.getLast?.all Piece.closes

/-- A phrase is scanned as the given identifiers in order, and otherwise as known tokens,
among them a placeholder for each value and the word WHERE so many times. -/
def Spells (aliases : Nat) (phrase : Phrase) (names : List String) (wheres : Nat) : Prop :=
  ∃ tokens, scan (statement phrase).sql = some tokens ∧
    Token.Show aliases names (statement phrase).params.length wheres tokens

theorem closes_concat (phrase : Phrase) (piece : Piece) :
    closes (phrase ++ [piece]) = piece.closes := by
  rw [closes, List.getLast?_concat, Option.all_some]

theorem toList_sql (phrase : Phrase) :
    (statement phrase).sql.toList = phrase.flatMap fun piece => piece.sql.toList := by
  show (String.join (phrase.map Piece.sql)).toList = _
  rw [String.toList_join, List.flatMap_map]

theorem separates_of_opens {phrase : Phrase} (h : opens phrase = true) :
    (statement phrase).sql.toList.head?.all separates = true := by
  cases phrase with
  | nil => rfl
  | cons piece rest =>
    obtain ⟨c, hc, hseparates⟩ := (Option.any_eq_true _ _).1 (show piece.opens = true from h)
    obtain ⟨chars, hchars⟩ := List.head?_eq_some_iff.1 hc
    rw [toList_sql, List.flatMap_cons, hchars]
    exact hseparates

theorem separates_of_closes {phrase : Phrase} (h : closes phrase = true) :
    (statement phrase).sql.toList.getLast?.all separates = true := by
  rcases List.eq_nil_or_concat phrase with rfl | ⟨init, piece, rfl⟩
  · rfl
  · rw [List.concat_eq_append] at h ⊢
    rw [closes_concat] at h
    obtain ⟨c, hc, hseparates⟩ := (Option.any_eq_true _ _).1 h
    obtain ⟨chars, hchars⟩ := List.getLast?_eq_some_iff.1 hc
    rw [toList_sql, List.flatMap_append, List.flatMap_singleton, hchars, ← List.append_assoc,
      List.getLast?_concat]
    exact hseparates

namespace Spells

variable {aliases : Nat} {phrase other : Phrase} {names others : List String}
  {wheres more : Nat}

theorem nil : Spells aliases [] [] 0 :=
  ⟨[], rfl, rfl, by simp, rfl, rfl⟩

/-- Phrases are read one after the other where no token runs over the boundary. -/
theorem append (h : Spells aliases phrase names wheres) (hother : Spells aliases other others more)
    (hapart : closes phrase = true ∨ opens other = true) :
    Spells aliases (phrase ++ other) (names ++ others) (wheres + more) := by
  obtain ⟨tokens, hscan, hshow⟩ := h
  obtain ⟨rest, hscanOther, hshowOther⟩ := hother
  refine ⟨tokens ++ rest, ?_, ?_⟩
  · rw [statement_append, Statement.append, scan, String.toList_append]
    exact scan_append hscan hscanOther (hapart.imp separates_of_closes separates_of_opens)
  · rw [statement_append, Statement.append, List.length_append]
    exact hshow.append hshowOther

/-! ## Single pieces -/

theorem name (identifier : String) : Spells aliases [.name identifier] [identifier] 0 := by
  refine ⟨[.identifier identifier], ?_, rfl, ?_, rfl, rfl⟩
  · simpa [statement, Piece.sql] using scan_quoted identifier
  · intro token htoken
    rw [List.mem_singleton.1 htoken]
    exact .inl rfl

theorem value (v : Json) : Spells aliases [.value v] [] 0 := by
  have hscan : scan "?" = some [.symbol '?'] := rfl
  refine ⟨[.symbol '?'], hscan, rfl, ?_, rfl, rfl⟩
  intro token htoken
  rw [List.mem_singleton.1 htoken]
  exact .inr (.inr (.inl rfl))

theorem tableAlias {i : Nat} (h : i < aliases) :
    Spells aliases [.text (tableAlias i)] [] 0 := by
  refine ⟨[.word (TableApi.tableAlias i)], ?_, rfl, ?_, rfl, ?_⟩
  · simpa [statement, Piece.sql] using scan_tableAlias i
  · intro token htoken
    rw [List.mem_singleton.1 htoken]
    exact .inr (.inr (.inr ⟨i, h, rfl⟩))
  · rw [List.count_eq_zero]
    intro hmem
    -- No keyword begins as aliases do.
    have hchars := congrArg String.toList (Token.word.inj (List.mem_singleton.1 hmem))
    rw [toList_tableAlias] at hchars
    simp at hchars

theorem fixed {text : String} (htext : isFixed wheres text = true) :
    Spells aliases [.text text] [] wheres := by
  obtain ⟨tokens, hscan, htokens⟩ := (Option.any_eq_true _ _).1 htext
  rw [Bool.and_eq_true, List.all_eq_true, beq_iff_eq] at htokens
  obtain ⟨hfixed, hwheres⟩ := htokens
  refine ⟨tokens, by simpa [statement, Piece.sql] using hscan, ?_, ?_, ?_, hwheres⟩
  · rw [List.filterMap_eq_nil_iff]
    intro token htoken
    cases token with
    | identifier name => cases hfixed _ htoken
    | _ => rfl
  · intro token htoken
    exact .inr (.inl (hfixed token htoken))
  · have hnone : Token.symbol '?' ∉ tokens := fun hmem => absurd (hfixed _ hmem) (by decide)
    exact List.count_eq_zero.2 hnone

/-! ## Phrases around fixed texts -/

/-- A fixed text in front of a phrase. -/
theorem lead (again : Nat) (text : String) (h : Spells aliases phrase names wheres)
    (htext : isLead again text = true) :
    Spells aliases ([.text text] ++ phrase) names (again + wheres) := by
  rw [isLead, Bool.and_eq_true] at htext
  exact (fixed htext.1).append h (.inl htext.2)

/-- A fixed text behind a phrase. -/
theorem tail (again : Nat) (text : String) (h : Spells aliases phrase names wheres)
    (htext : isTail again text = true) :
    Spells aliases (phrase ++ [.text text]) names (wheres + again) := by
  rw [isTail, Bool.and_eq_true] at htext
  have := h.append (fixed htext.1) (.inr htext.2)
  rwa [List.append_nil] at this

/-- A fixed text between two phrases. -/
theorem glue (again : Nat) (text : String) (h : Spells aliases phrase names wheres)
    (hother : Spells aliases other others more)
    (htext : isGlue again text = true) :
    Spells aliases (phrase ++ [.text text] ++ other) (names ++ others) (wheres + again + more) := by
  rw [isGlue, Bool.and_eq_true] at htext
  refine (h.tail again text htext.1).append hother (.inl ?_)
  rw [closes_concat]
  exact htext.2

/-- Phrases with a fixed text between each two of them. -/
theorem joined {α : Type} {spelled : α → Phrase} {named : α → List String} {items : List α}
    (text : String) (h : ∀ item ∈ items, Spells aliases (spelled item) (named item) 0)
    (htext : isGlue 0 text = true) :
    Spells aliases (joined text (items.map spelled)) (items.flatMap named) 0 := by
  induction items with
  | nil => exact nil
  | cons item rest ih =>
    rw [List.forall_mem_cons] at h
    cases rest with
    | nil => simpa [Phrase.joined] using h.1
    | cons next others =>
      have hall := h.1.glue 0 text (ih h.2) htext
      rwa [List.append_assoc] at hall

/-- Phrases of one identifier each with a fixed text between each two of them. -/
theorem list {α : Type} {spelled : α → Phrase} {named : α → String} {items : List α}
    (text : String) (h : ∀ item ∈ items, Spells aliases (spelled item) [named item] 0)
    (htext : isGlue 0 text = true) :
    Spells aliases (Phrase.joined text (items.map spelled)) (items.map named) 0 := by
  rw [List.map_eq_flatMap (f := named)]
  exact joined text h htext

/-- Two texts that stand together may be one. -/
theorem joinText (front : Phrase) {rest : Phrase} {first second : String}
    (h : Spells aliases (front ++ .text first :: .text second :: rest) names wheres) :
    Spells aliases (front ++ .text (first ++ second) :: rest) names wheres := by
  have hsame : statement (front ++ .text (first ++ second) :: rest) =
      statement (front ++ .text first :: .text second :: rest) := by
    simp [statement, Piece.sql, Piece.params, String.append_assoc]
  rw [Spells, hsame]
  exact h

end Spells

end Phrase

end TableApi.Sql
