import KeysetPaging.Sql.Query
import Mathlib.Data.List.Basic

/-! # Reading a query back

A database reads the text of a query, not the query that was written. The reader here takes the part
of a query behind its base apart into tokens, groups the tokens of a condition, in which `AND` binds
closer than `OR`, and binds the values to the question marks from left to right. It reads back what
the query of a page says.
-/

namespace KeysetPaging.Sql

/-! ## Tokens -/

/-- A token of a query. -/
inductive Token where
  /-- A name between double quotes, in which a quote that is written twice stands for one. -/
  | name (text : String)
  | word (text : String)
  | mark (c : Char)
  /-- A name without its closing quote. -/
  | unclosed
  deriving DecidableEq, Repr

/-- How far a token is read. What is read of it comes last character first. -/
inductive Scan where
  | between
  | word (read : List Char)
  | quoted (read : List Char)
  /-- After a quote inside a name, which ends the name unless another quote follows. -/
  | quote (read : List Char)

/-- The character is part of a word. -/
def isWordChar (c : Char) : Bool :=
  c.isAlphanum || c = '_'

/-- What a character starts that is read between tokens, and the token that it is. -/
def startToken (c : Char) : Scan × List Token :=
  if c.isWhitespace then (.between, [])
  else if c = '"' then (.quoted [], [])
  else if isWordChar c then (.word [c], [])
  else (.between, [.mark c])

/-- The tokens of a text. -/
def scan : Scan → List Char → List Token
  | .between, [] => []
  | .word read, [] => [.word (String.ofList read.reverse)]
  | .quoted _, [] => [.unclosed]
  | .quote read, [] => [.name (String.ofList read.reverse)]
  | .between, c :: cs => (startToken c).2 ++ scan (startToken c).1 cs
  | .word read, c :: cs =>
      if isWordChar c then scan (.word (c :: read)) cs
      else .word (String.ofList read.reverse) :: (startToken c).2 ++ scan (startToken c).1 cs
  | .quoted read, c :: cs =>
      if c = '"' then scan (.quote read) cs else scan (.quoted (c :: read)) cs
  | .quote read, c :: cs =>
      if c = '"' then scan (.quoted (c :: read)) cs
      else .name (String.ofList read.reverse) :: (startToken c).2 ++ scan (startToken c).1 cs

/-- A character that ends a word or a name before it. -/
def isDelimiter (c : Char) : Bool :=
  !isWordChar c && c != '"'

/-- A text in front of which every token ends. -/
def Delimited (cs : List Char) : Prop :=
  ∀ c ∈ cs.head?, isDelimiter c

theorem delimited_cons {c : Char} (h : isDelimiter c) (cs : List Char) : Delimited (c :: cs) := by
  simpa [Delimited] using h

/-- A word that is followed by a delimiter is one token. -/
theorem scan_word {read : List Char} : ∀ {cs rest : List Char}, (∀ c ∈ cs, isWordChar c) →
    Delimited rest → scan (.word read) (cs ++ rest) =
      .word (String.ofList (read.reverse ++ cs)) :: scan .between rest
  | [], rest, _, hrest => by
    cases rest with
    | nil => simp [scan]
    | cons c rest =>
      have hc : isWordChar c = false := by
        have := hrest c rfl
        simp only [isDelimiter, Bool.and_eq_true] at this
        simpa using this.1
      simp [scan, hc]
  | c :: cs, rest, hword, hrest => by
    have hc : isWordChar c := hword c (by simp)
    rw [List.cons_append, scan, if_pos hc,
      scan_word (fun d hd => hword d (by simp [hd])) hrest]
    simp

/-- A character of a word starts one. -/
theorem startToken_of_isWordChar {c : Char} (h : isWordChar c) :
    startToken c = (.word [c], []) := by
  have hblank : c.isWhitespace = false := by
    by_contra hblank
    simp only [Bool.not_eq_false, Char.isWhitespace, Bool.or_eq_true, decide_eq_true_eq] at hblank
    rcases hblank with ((rfl | rfl) | rfl) | rfl <;> cases h
  have hquote : c ≠ '"' := by
    rintro rfl
    cases h
  simp [startToken, hblank, hquote, h]

/-- A word between tokens is one token. -/
theorem scan_between_word {c : Char} {cs rest : List Char} (h : (c :: cs).all isWordChar)
    (hrest : Delimited rest) :
    scan .between (c :: cs ++ rest) = .word (String.ofList (c :: cs)) :: scan .between rest := by
  obtain ⟨hc, hcs⟩ := List.forall_mem_cons.mp (List.all_eq_true.mp h)
  rw [List.cons_append, scan, startToken_of_isWordChar hc, scan_word hcs hrest]
  rfl

/-- A quoted name is read as it was before its quotes were doubled. -/
theorem scan_doubled {read : List Char} : ∀ {cs rest : List Char}, Delimited rest →
    scan (.quoted read) (doubled cs ++ '"' :: rest) =
      .name (String.ofList (read.reverse ++ cs)) :: scan .between rest
  | [], rest, hrest => by
    cases rest with
    | nil => simp [scan, doubled]
    | cons c rest =>
      have hc : c ≠ '"' := by
        have := hrest c rfl
        simp only [isDelimiter, Bool.and_eq_true, bne_iff_ne] at this
        exact this.2
      simp [scan, doubled, hc]
  | c :: cs, rest, hrest => by
    by_cases hc : c = '"'
    · subst hc
      simp only [doubled, if_true, List.cons_append, scan]
      rw [scan_doubled hrest]
      simp
    · simp only [doubled, if_neg hc, List.cons_append, scan]
      rw [scan_doubled hrest]
      simp

/-- A column is its row, a full stop and its name. -/
theorem scan_columnText (column : String) {rest : List Char} (hrest : Delimited rest) :
    scan .between (Condition.columnText column ++ rest) =
      .word "q" :: .mark '.' :: .name column :: scan .between rest := by
  have hquoted : scan (.quoted []) (doubled column.toList ++ '"' :: rest) =
      .name column :: scan .between rest := by
    rw [scan_doubled hrest]
    simp
  rw [← hquoted]
  simp only [Condition.columnText, identifier, List.cons_append, List.append_assoc,
    List.nil_append]
  rfl

/-! ## Conditions -/

/-- A test of one column of a row. -/
inductive Test where
  | never
  | always
  | absent (column : String)
  | present (column : String)
  /-- The column has the value, or both are null. -/
  | same (column : String) (value : Value)
  | above (column : String) (value : Value)
  | below (column : String) (value : Value)

/-- A condition on a row. -/
inductive Formula where
  | test (t : Test)
  | and (f g : Formula)
  | or (f g : Formula)

namespace Formula

/-- Conditions that hold together. -/
def all : List Formula → Formula
  | [] => .test .always
  | f :: fs => fs.foldl .and f

/-- Conditions of which one holds. -/
def any : List Formula → Formula
  | [] => .test .never
  | f :: fs => fs.foldl .or f

end Formula

/-- A part of a condition that the grammar of conditions sees as one. -/
inductive Lexeme where
  | bracket
  | endBracket
  | conjunction
  | disjunction
  | test (t : Test)

/-- Lexemes that are read in front of others. -/
def readThen (read : List Lexeme) (others : Option (List Lexeme × List Token)) :
    Option (List Lexeme × List Token) :=
  others.map fun (others, tokens) => (read ++ others, tokens)

@[simp] theorem readThen_readThen (first second : List Lexeme)
    (others : Option (List Lexeme × List Token)) :
    readThen first (readThen second others) = readThen (first ++ second) others := by
  cases others <;> simp [readThen]

/-- The lexemes of a condition up to the word `ORDER`, and the tokens after that word. Every
question mark takes the next value, and no value may be left over. -/
def lexemes : List Token → List Value → Option (List Lexeme × List Token)
  | .word "ORDER" :: rest, [] => some ([], rest)
  | .mark '(' :: rest, values => readThen [.bracket] (lexemes rest values)
  | .mark ')' :: rest, values => readThen [.endBracket] (lexemes rest values)
  | .word "AND" :: rest, values => readThen [.conjunction] (lexemes rest values)
  | .word "OR" :: rest, values => readThen [.disjunction] (lexemes rest values)
  | .word "FALSE" :: rest, values => readThen [.test .never] (lexemes rest values)
  | .word "TRUE" :: rest, values => readThen [.test .always] (lexemes rest values)
  | .word "q" :: .mark '.' :: .name column :: .mark '>' :: .mark '?' :: rest, value :: values =>
      readThen [.test (.above column value)] (lexemes rest values)
  | .word "q" :: .mark '.' :: .name column :: .mark '<' :: .mark '?' :: rest, value :: values =>
      readThen [.test (.below column value)] (lexemes rest values)
  | .word "q" :: .mark '.' :: .name column :: .word "IS" :: .word "NULL" :: rest, values =>
      readThen [.test (.absent column)] (lexemes rest values)
  | .word "q" :: .mark '.' :: .name column :: .word "IS" :: .word "NOT" :: .word "NULL" :: rest,
    values =>
      readThen [.test (.present column)] (lexemes rest values)
  | .word "q" :: .mark '.' :: .name column :: .word "IS" :: .word "NOT" :: .word "DISTINCT" ::
      .word "FROM" :: .mark '?' :: rest, value :: values =>
      readThen [.test (.same column value)] (lexemes rest values)
  | _, _ => none

/-- A bracket that is open: the alternatives before the last `OR`, and the conditions that hold
together after it. -/
structure Bracket where
  alternatives : Option Formula := none
  conjuncts : Option Formula := none

namespace Bracket

/-- The bracket with one more condition in its last alternative. -/
def add (bracket : Bracket) (f : Formula) : Bracket :=
  { bracket with conjuncts := some (bracket.conjuncts.elim f (.and · f)) }

/-- What the bracket says so far. There is nothing after a bracket or an `OR` that was just read. -/
def formula? (bracket : Bracket) : Option Formula :=
  bracket.conjuncts.map fun f => bracket.alternatives.elim f (.or · f)

/-- The bracket with its last alternative finished. -/
def alternative (bracket : Bracket) : Bracket :=
  { alternatives := bracket.formula? }

end Bracket

mutual

/-- Reads a condition where an operand is due, inside `outer` brackets. -/
def readOperand (outer : List Bracket) (bracket : Bracket) : List Lexeme → Option Formula
  | .bracket :: rest => readOperand (bracket :: outer) {} rest
  | .test t :: rest => readOperator outer (bracket.add (.test t)) rest
  | _ => none

/-- Reads on after an operand. -/
def readOperator (outer : List Bracket) (bracket : Bracket) : List Lexeme → Option Formula
  | [] => if outer.isEmpty then bracket.formula? else none
  | .conjunction :: rest => readOperand outer bracket rest
  | .disjunction :: rest => readOperand outer bracket.alternative rest
  | .endBracket :: rest =>
      match outer, bracket.formula? with
      | next :: outer, some f => readOperator outer (next.add f) rest
      | _, _ => none
  | _ => none

end

/-! ## Statements -/

/-- A column by which rows are sorted. -/
structure SortKey where
  column : String
  direction : Direction
  nullsFirst : Bool

/-- What the part of a query behind its base says: which rows, in which order, and how many. -/
structure Statement where
  condition : Option Formula
  keys : List SortKey
  limit : Nat

/-- The direction that a word names. -/
def readDirection? : String → Option Direction
  | "ASC" => some .ascending
  | "DESC" => some .descending
  | _ => none

/-- Whether a word puts nulls first. -/
def readNullsFirst? : String → Option Bool
  | "FIRST" => some true
  | "LAST" => some false
  | _ => none

/-- The number that a word writes in decimal. -/
def readNumber? (word : String) : Option Nat :=
  if word.toList.all Char.isDigit then some (Nat.ofDigitChars 10 word.toList 0) else none

/-- Reads the columns by which rows are sorted, and the limit behind them. -/
def readKeys : List Token → Option (List SortKey × Nat)
  | .word "q" :: .mark '.' :: .name column :: .word direction :: .word "NULLS" ::
      .word placement :: rest => do
      let key : SortKey := ⟨column, ← readDirection? direction, ← readNullsFirst? placement⟩
      match rest with
      | .mark ',' :: rest => (readKeys rest).map (Prod.map (key :: ·) id)
      | [.word "LIMIT", .word limit] => (readNumber? limit).map ([key], ·)
      | _ => none
  | _ => none

/-- Reads the part of a query behind its base, with the values that are bound to it. -/
def readStatement (text : List Char) (values : List Value) : Option Statement :=
  match scan .between text with
  | .word "WHERE" :: tokens =>
      match lexemes tokens values with
      | some (condition, .word "BY" :: tokens) => do
          let condition ← readOperand [] {} condition
          (readKeys tokens).map fun (keys, limit) => ⟨some condition, keys, limit⟩
      | _ => none
  | .word "ORDER" :: .word "BY" :: tokens =>
      if values.isEmpty then (readKeys tokens).map fun (keys, limit) => ⟨none, keys, limit⟩
      else none
  | _ => none

/-! ## Conditions are read back -/

/-- With its values, a text is read as lexemes, whatever text and values follow. -/
def Reads (text : List Char) (values : List Value) (read : List Lexeme) : Prop :=
  ∀ rest others, Delimited rest →
    lexemes (scan .between (text ++ rest)) (values ++ others) =
      readThen read (lexemes (scan .between rest) others)

/-- A text that ends every token in front of it, and that is read as lexemes whatever follows. -/
structure Separates (text : List Char) (read : List Lexeme) : Prop where
  delimited : ∀ rest, Delimited (text ++ rest)
  reads : ∀ rest others, lexemes (scan .between (text ++ rest)) others =
    readThen read (lexemes (scan .between rest) others)

theorem separates_and : Separates " AND ".toList [.conjunction] where
  delimited rest := delimited_cons rfl _
  reads rest others := by
    change lexemes (.word "AND" :: scan .between rest) others = _
    rw [lexemes]

theorem separates_or : Separates " OR ".toList [.disjunction] where
  delimited rest := delimited_cons rfl _
  reads rest others := by
    change lexemes (.word "OR" :: scan .between rest) others = _
    rw [lexemes]

/-- Two texts with a separator between them are read one after the other. -/
theorem Reads.separated {first second separator : List Char} {values others : List Value}
    {read readAfter between : List Lexeme} (hfirst : Reads first values read)
    (hseparator : Separates separator between) (hsecond : Reads second others readAfter) :
    Reads (first ++ separator ++ second) (values ++ others) (read ++ between ++ readAfter) := by
  intro rest further hrest
  rw [List.append_assoc, List.append_assoc, List.append_assoc, List.append_assoc,
    hfirst _ _ (hseparator.delimited _), hseparator.reads, hsecond _ _ hrest]
  simp

/-- Texts with a separator between them are read one after another. -/
theorem Reads.intercalate {β : Type} {separator : List Char} {between : List Lexeme}
    (hseparator : Separates separator between) {text : β → List Char} {values : β → List Value}
    {read : β → List Lexeme} : ∀ {xs : List β}, xs ≠ [] →
      (∀ x ∈ xs, Reads (text x) (values x) (read x)) →
      Reads (separator.intercalate (xs.map text)) (xs.flatMap values)
        (between.intercalate (xs.map read))
  | [x], _, h => by
    simpa using h x (by simp)
  | x :: y :: xs, _, h => by
    have hrest := Reads.intercalate hseparator (List.cons_ne_nil y xs)
      fun z hz => h z (by simp [hz])
    simp only [List.map_cons, List.intercalate_cons_cons]
    exact (h x (by simp)).separated hseparator hrest

/-- A text between brackets is read between brackets. -/
theorem Reads.bracketed {text : List Char} {values : List Value} {read : List Lexeme}
    (h : Reads text values read) :
    Reads ('(' :: text ++ [')']) values (.bracket :: read ++ [.endBracket]) := by
  intro rest others _
  have hclose : scan .between (')' :: rest) = .mark ')' :: scan .between rest := rfl
  rw [List.append_assoc, List.cons_append, List.singleton_append]
  change lexemes (.mark '(' :: scan .between (text ++ ')' :: rest)) _ = _
  rw [lexemes, h _ _ (delimited_cons rfl rest), hclose, lexemes]
  simp

namespace Condition

/-- What is read of a condition. -/
def lexemes : Condition → List Lexeme
  | .same column value => [.test (.same column value)]
  | .present column => [.test (.present column)]
  | .never => [.test .never]
  | .above column value => [.test (.above column value)]
  | .belowOrNull column value =>
      [.bracket, .test (.below column value), .disjunction, .test (.absent column), .endBracket]

/-- What a condition says. -/
def formula : Condition → Formula
  | .same column value => .test (.same column value)
  | .present column => .test (.present column)
  | .never => .test .never
  | .above column value => .test (.above column value)
  | .belowOrNull column value => .or (.test (.below column value)) (.test (.absent column))

/-- A column in front of a text is read with it. -/
theorem reads_column {column : String} {text : List Char} {values : List Value} {read : List Lexeme}
    (hdelimited : ∀ rest, Delimited (text ++ rest))
    (h : ∀ rest others, Delimited rest →
      Sql.lexemes (.word "q" :: .mark '.' :: .name column :: scan .between (text ++ rest))
        (values ++ others) = readThen read (Sql.lexemes (scan .between rest) others)) :
    Reads (columnText column ++ text) values read := by
  intro rest others hrest
  rw [List.append_assoc, scan_columnText column (hdelimited rest)]
  exact h rest others hrest

/-- The text of a condition is read with its values. -/
theorem reads : ∀ condition : Condition, Reads condition.text condition.values condition.lexemes
  | .same column value => by
    refine reads_column (fun _ => delimited_cons rfl _) fun rest others _ => ?_
    change Sql.lexemes (.word "q" :: .mark '.' :: .name column :: .word "IS" :: .word "NOT" ::
      .word "DISTINCT" :: .word "FROM" :: .mark '?' :: scan .between rest) (value :: others) = _
    rw [Sql.lexemes]
    rfl
  | .present column => by
    refine reads_column (fun _ => delimited_cons rfl _) fun rest others hrest => ?_
    have hnull : scan .between ("NULL".toList ++ rest) = .word "NULL" :: scan .between rest :=
      scan_between_word (by decide) hrest
    change Sql.lexemes (.word "q" :: .mark '.' :: .name column :: .word "IS" :: .word "NOT" ::
      scan .between ("NULL".toList ++ rest)) others = _
    rw [hnull, Sql.lexemes]
    rfl
  | .never => by
    intro rest others hrest
    have hfalse : scan .between ("FALSE".toList ++ rest) = .word "FALSE" :: scan .between rest :=
      scan_between_word (by decide) hrest
    change Sql.lexemes (scan .between ("FALSE".toList ++ rest)) others = _
    rw [hfalse, Sql.lexemes]
    rfl
  | .above column value => by
    refine reads_column (fun _ => delimited_cons rfl _) fun rest others _ => ?_
    change Sql.lexemes (.word "q" :: .mark '.' :: .name column :: .mark '>' :: .mark '?' ::
      scan .between rest) (value :: others) = _
    rw [Sql.lexemes]
    rfl
  | .belowOrNull column value => by
    have hbelow : Reads (columnText column ++ " < ?".toList) [value]
        [.test (.below column value)] := by
      refine reads_column (fun _ => delimited_cons rfl _) fun rest others _ => ?_
      change Sql.lexemes (.word "q" :: .mark '.' :: .name column :: .mark '<' :: .mark '?' ::
        scan .between rest) (value :: others) = _
      rw [Sql.lexemes]
    have habsent : Reads (columnText column ++ " IS NULL".toList) [] [.test (.absent column)] := by
      refine reads_column (fun _ => delimited_cons rfl _) fun rest others hrest => ?_
      have hnull : scan .between ("NULL".toList ++ rest) = .word "NULL" :: scan .between rest :=
        scan_between_word (by decide) hrest
      change Sql.lexemes (.word "q" :: .mark '.' :: .name column :: .word "IS" ::
        scan .between ("NULL".toList ++ rest)) others = _
      rw [hnull, Sql.lexemes]
    have heither := (hbelow.separated separates_or habsent).bracketed
    have htext : (belowOrNull column value).text = '(' :: (columnText column ++ " < ?".toList ++
        " OR ".toList ++ (columnText column ++ " IS NULL".toList)) ++ [')'] := by
      simp [text]
    rw [htext]
    exact heither

end Condition

/-- What is read of a case. -/
def caseLexemes (conditions : List Condition) : List Lexeme :=
  .bracket :: [Lexeme.conjunction].intercalate (conditions.map Condition.lexemes) ++ [.endBracket]

/-- What is read of cases. -/
def casesLexemes (cases : List (List Condition)) : List Lexeme :=
  .bracket :: [Lexeme.disjunction].intercalate (cases.map caseLexemes) ++ [.endBracket]

/-- A case of a keyset condition is read with its values. -/
theorem reads_caseText {conditions : List Condition} (h : conditions ≠ []) :
    Reads (caseText conditions) (conditions.flatMap Condition.values) (caseLexemes conditions) :=
  (Reads.intercalate separates_and h fun condition _ => condition.reads).bracketed

/-- A keyset condition is read with its values. -/
theorem reads_casesText {cases : List (List Condition)} (hne : cases ≠ [])
    (h : ∀ conditions ∈ cases, conditions ≠ []) :
    Reads (casesText cases) (cases.flatten.flatMap Condition.values) (casesLexemes cases) := by
  have hvalues : cases.flatten.flatMap Condition.values =
      cases.flatMap fun conditions => conditions.flatMap Condition.values := by
    rw [← List.flatMap_id, List.flatMap_assoc]
    rfl
  rw [hvalues]
  exact (Reads.intercalate separates_or hne fun conditions hconditions =>
    reads_caseText (h conditions hconditions)).bracketed

/-! ## What is read is put together -/

/-- Where an operand is due, lexemes are put together to a condition, whatever follows. -/
def Operand (read : List Lexeme) (f : Formula) : Prop :=
  ∀ outer bracket rest,
    readOperand outer bracket (read ++ rest) = readOperator outer (bracket.add f) rest

theorem operand_test (t : Test) : Operand [.test t] (.test t) := by
  intro outer bracket rest
  rw [List.singleton_append, readOperand]

/-- Operands with a joint between them are put together one after another, when reading on after
the joint changes the bracket as `step` does. -/
theorem readOperand_intercalate {β : Type} {joint : Lexeme} {step : Bracket → Bracket}
    (hjoint : ∀ outer bracket rest,
      readOperator outer bracket (joint :: rest) = readOperand outer (step bracket) rest)
    {read : β → List Lexeme} {formula : β → Formula} :
    ∀ {x : β} {xs : List β}, (∀ y ∈ x :: xs, Operand (read y) (formula y)) →
      ∀ (outer : List Bracket) (bracket : Bracket) (rest : List Lexeme),
        readOperand outer bracket ([joint].intercalate ((x :: xs).map read) ++ rest) =
          readOperator outer (xs.foldl (fun bracket y => (step bracket).add (formula y))
            (bracket.add (formula x))) rest
  | x, [], h, outer, bracket, rest => by
    simpa using h x (by simp) outer bracket rest
  | x, y :: xs, h, outer, bracket, rest => by
    have hrest := readOperand_intercalate hjoint
      (fun z (hz : z ∈ y :: xs) => h z (List.mem_cons_of_mem x hz)) outer
      (step (bracket.add (formula x))) rest
    simp only [List.map_cons, List.intercalate_cons_cons, List.append_assoc,
      List.cons_append, List.nil_append, List.foldl_cons] at hrest ⊢
    rw [h x (by simp), hjoint, hrest]

/-- Operands with `AND` between them are one alternative of a bracket. -/
theorem formula?_conjunction {β : Type} (formula : β → Formula) : ∀ (xs : List β) (f : Formula),
    (xs.foldl (fun (bracket : Bracket) y => bracket.add (formula y))
      { conjuncts := some f }).formula? = some ((xs.map formula).foldl .and f)
  | [], _ => rfl
  | y :: xs, f => formula?_conjunction formula xs (f.and (formula y))

/-- Operands with `OR` between them are the alternatives of a bracket. -/
theorem formula?_disjunction {β : Type} (formula : β → Formula) :
    ∀ (xs : List β) {bracket : Bracket} {f : Formula}, bracket.formula? = some f →
      (xs.foldl (fun (bracket : Bracket) y => bracket.alternative.add (formula y))
        bracket).formula? = some ((xs.map formula).foldl .or f)
  | [], _, _, h => h
  | y :: xs, bracket, f, h => by
    refine formula?_disjunction formula xs ?_
    simp only [Bracket.alternative, h]
    rfl

/-- What stands between brackets, and says something, is one operand. -/
theorem operand_bracketed {read : List Lexeme} {inner : Bracket} {f : Formula}
    (hread : ∀ outer rest, readOperand outer {} (read ++ rest) = readOperator outer inner rest)
    (hformula : inner.formula? = some f) : Operand (.bracket :: read ++ [.endBracket]) f := by
  intro outer bracket rest
  rw [List.append_assoc, List.cons_append, readOperand, hread, List.singleton_append]
  simp only [readOperator, hformula]

/-- Operands with `AND` between them, in brackets, hold together. -/
theorem operand_all {β : Type} {read : β → List Lexeme} {formula : β → Formula} {xs : List β}
    (hne : xs ≠ []) (h : ∀ x ∈ xs, Operand (read x) (formula x)) :
    Operand (.bracket :: [Lexeme.conjunction].intercalate (xs.map read) ++ [.endBracket])
      (.all (xs.map formula)) := by
  obtain ⟨x, xs, rfl⟩ := List.exists_cons_of_ne_nil hne
  have hjoint : ∀ outer bracket rest, readOperator outer bracket (.conjunction :: rest) =
      readOperand outer (id bracket) rest := fun _ _ _ => by simp only [readOperator, id]
  exact operand_bracketed (fun outer rest => readOperand_intercalate hjoint h outer {} rest)
    (formula?_conjunction formula xs (formula x))

/-- Of operands with `OR` between them, in brackets, one holds. -/
theorem operand_any {β : Type} {read : β → List Lexeme} {formula : β → Formula} {xs : List β}
    (hne : xs ≠ []) (h : ∀ x ∈ xs, Operand (read x) (formula x)) :
    Operand (.bracket :: [Lexeme.disjunction].intercalate (xs.map read) ++ [.endBracket])
      (.any (xs.map formula)) := by
  obtain ⟨x, xs, rfl⟩ := List.exists_cons_of_ne_nil hne
  have hjoint : ∀ outer bracket rest, readOperator outer bracket (.disjunction :: rest) =
      readOperand outer bracket.alternative rest := fun _ _ _ => by simp only [readOperator]
  exact operand_bracketed (fun outer rest => readOperand_intercalate hjoint h outer {} rest)
    (formula?_disjunction formula xs rfl)

/-- A condition is one operand. -/
theorem Condition.operand : ∀ condition : Condition, Operand condition.lexemes condition.formula
  | .same _ _ | .present _ | .never | .above _ _ => operand_test _
  | .belowOrNull column value => by
    intro outer bracket rest
    rfl

/-- What a keyset condition says: in one of its cases, all the conditions hold. -/
def casesFormula (cases : List (List Condition)) : Formula :=
  .any (cases.map fun conditions => .all (conditions.map Condition.formula))

/-- A keyset condition is one operand. -/
theorem operand_cases {cases : List (List Condition)} (hne : cases ≠ [])
    (h : ∀ conditions ∈ cases, conditions ≠ []) :
    Operand (casesLexemes cases) (casesFormula cases) :=
  operand_any hne fun conditions hconditions =>
    operand_all (h conditions hconditions) fun condition _ => condition.operand

/-- **A keyset condition is read back** with the values of its question marks, up to the order of
the rows. -/
theorem lexemes_cases {cases : List (List Condition)} (hne : cases ≠ [])
    (h : ∀ conditions ∈ cases, conditions ≠ []) (order : List Char) :
    lexemes (scan .between (casesText cases ++ (" ORDER BY ".toList ++ order)))
        (cases.flatten.flatMap Condition.values) =
      some (casesLexemes cases, .word "BY" :: scan .between order) := by
  have horder : lexemes (scan .between (" ORDER BY ".toList ++ order)) [] =
      some ([], .word "BY" :: scan .between order) := by
    change lexemes (.word "ORDER" :: .word "BY" :: scan .between order) [] = _
    rw [lexemes]
  have hreads := reads_casesText hne h (" ORDER BY ".toList ++ order) [] (delimited_cons rfl _)
  rw [List.append_nil, horder] at hreads
  simpa [readThen] using hreads

/-- A keyset condition is put together again. -/
theorem readOperand_cases {cases : List (List Condition)} (hne : cases ≠ [])
    (h : ∀ conditions ∈ cases, conditions ≠ []) :
    readOperand [] {} (casesLexemes cases) = some (casesFormula cases) := by
  have hoperand := operand_cases hne h [] {} []
  rw [List.append_nil] at hoperand
  rw [hoperand, readOperator]
  rfl

/-! ## Orders are read back -/

namespace SortKey

/-- The column of a field, with nulls in front of all values in the order of the field itself. -/
def ofField (field : SortField) : SortKey where
  column := field.name
  direction := field.direction
  nullsFirst := !field.direction.isDescending

end SortKey

/-- The digits of a number are read as the number. -/
theorem readNumber?_toString (n : Nat) : readNumber? (toString n) = some n := by
  have hdigits : (toString n).toList = Nat.toDigits 10 n := by
    rw [Nat.toString_eq_ofList_toDigits, String.toList_ofList]
  have hall : (Nat.toDigits 10 n).all Char.isDigit := by
    simp only [List.all_eq_true]
    exact fun c hc => Nat.isDigit_of_mem_toDigits (by decide) (by decide) hc
  rw [readNumber?, hdigits, if_pos hall, Nat.ofDigitChars_ten_toDigits]

/-- The digits of a number are one token. -/
theorem scan_toString (n : Nat) : scan .between (toString n).toList = [.word (toString n)] := by
  have hdigits : (toString n).toList = Nat.toDigits 10 n := by
    rw [Nat.toString_eq_ofList_toDigits, String.toList_ofList]
  have hword : (Nat.toDigits 10 n).all isWordChar := by
    refine List.all_eq_true.mpr fun c hc => ?_
    have hdigit := Nat.isDigit_of_mem_toDigits (by decide) (by decide) hc
    simp [isWordChar, Char.isAlphanum, hdigit]
  obtain ⟨c, cs, hcs⟩ := List.exists_cons_of_ne_nil (Nat.toDigits_ne_nil (n := n) (b := 10))
  rw [hcs] at hword hdigits
  have hscan := scan_between_word hword (show Delimited [] by simp [Delimited])
  rw [List.append_nil, ← hdigits, String.ofList_toList] at hscan
  rw [hscan]
  rfl

/-- The place of a field in the order of the rows: its column, and two words for its direction and
for where its nulls are. -/
theorem scan_orderText (field : SortField) {rest : List Char} (hrest : Delimited rest) :
    ∃ direction placement, scan .between (Query.orderText field ++ rest) =
        .word "q" :: .mark '.' :: .name field.name :: .word direction :: .word "NULLS" ::
          .word placement :: scan .between rest ∧
      readDirection? direction = some field.direction ∧
      readNullsFirst? placement = some !field.direction.isDescending := by
  rw [Query.orderText, List.append_assoc]
  cases field.direction with
  | ascending =>
    refine ⟨"ASC", "FIRST", ?_, rfl, rfl⟩
    have hfirst : scan .between ("FIRST".toList ++ rest) = .word "FIRST" :: scan .between rest :=
      scan_between_word (by decide) hrest
    rw [← hfirst]
    exact scan_columnText field.name (delimited_cons rfl _)
  | descending =>
    refine ⟨"DESC", "LAST", ?_, rfl, rfl⟩
    have hlast : scan .between ("LAST".toList ++ rest) = .word "LAST" :: scan .between rest :=
      scan_between_word (by decide) hrest
    rw [← hlast]
    exact scan_columnText field.name (delimited_cons rfl _)

/-- The sort fields and the limit of a query are read back. -/
theorem readKeys_orderText (limit : Nat) : ∀ {fields : List SortField}, fields ≠ [] →
    readKeys (scan .between (", ".toList.intercalate (fields.map Query.orderText) ++
      (" LIMIT ".toList ++ (toString limit).toList))) = some (fields.map SortKey.ofField, limit)
  | [field], _ => by
    have hdelimited : Delimited (" LIMIT ".toList ++ (toString limit).toList) :=
      delimited_cons rfl _
    obtain ⟨direction, placement, hscan, hdirection, hplacement⟩ := scan_orderText field hdelimited
    have hlimit : scan .between (" LIMIT ".toList ++ (toString limit).toList) =
        [.word "LIMIT", .word (toString limit)] :=
      congrArg (Token.word "LIMIT" :: ·) (scan_toString limit)
    rw [List.map_singleton, List.intercalate_singleton, hscan, hlimit, readKeys, hdirection,
      hplacement]
    simp only [Option.bind_eq_bind, Option.bind_some, readNumber?_toString, Option.map_some]
    rfl
  | field :: next :: fields, _ => by
    have hrest := readKeys_orderText limit (List.cons_ne_nil next fields)
    generalize " LIMIT ".toList ++ (toString limit).toList = limitText at hrest ⊢
    have hdelimited : Delimited (", ".toList ++ (", ".toList.intercalate
        ((next :: fields).map Query.orderText) ++ limitText)) := delimited_cons rfl _
    obtain ⟨direction, placement, hscan, hdirection, hplacement⟩ := scan_orderText field hdelimited
    have hcomma : ∀ rest, scan .between (", ".toList ++ rest) = .mark ',' :: scan .between rest :=
      fun _ => rfl
    rw [List.map_cons, List.map_cons, List.intercalate_cons_cons, ← List.map_cons,
      List.append_assoc, List.append_assoc, hscan, hcomma, readKeys, hdirection, hplacement]
    simp only [Option.bind_eq_bind, Option.bind_some, hrest]
    rfl

/-! ## Queries are read back -/

namespace Query

/-- The part of a query behind its base. -/
def tail (query : Query) : List Char :=
  query.whereText ++ " ORDER BY ".toList ++ ", ".toList.intercalate (query.fields.map orderText) ++
    " LIMIT ".toList ++ (toString query.limit).toList

/-- What a query says of the rows of its base. -/
def statement (query : Query) : Statement where
  condition := query.after.map fun bounds => casesFormula (cases [] bounds)
  keys := query.fields.map SortKey.ofField
  limit := query.limit

end Query

/-- The part of a query up to the end of its base. -/
def Base.opening (base : Base) : List Char :=
  "SELECT CAST(to_json(q) AS VARCHAR) FROM (".toList ++ base.text ++ ") AS q".toList

/-- A query is its base and what it says of the rows. -/
theorem Query.text_eq (query : Query) :
    query.text = String.ofList (query.base.opening ++ query.tail) := by
  unfold Query.text Base.opening Query.tail
  refine congrArg String.ofList ?_
  simp only [List.append_assoc]

/-- There is a case for every bound, and none is empty. -/
theorem cases_ne_nil : ∀ {before : List Condition} {bounds : List Bound},
    ∀ conditions ∈ cases before bounds, conditions ≠ []
  | _, [] => by simp [cases]
  | before, bound :: rest => by
    rw [cases]
    simp only [List.mem_cons, forall_eq_or_imp]
    exact ⟨by simp, fun conditions h => cases_ne_nil conditions h⟩

/-- **The query of a page is read back**: its text and its values say which rows it asks for, in
which order and how many. -/
theorem readStatement_tail {query : Query} (hfields : query.fields ≠ [])
    (hafter : ∀ bounds ∈ query.after, bounds ≠ []) :
    readStatement query.tail query.values = some query.statement := by
  have hkeys := readKeys_orderText query.limit hfields
  cases hquery : query.after with
  | none =>
    have hscan : scan .between query.tail = .word "ORDER" :: .word "BY" :: scan .between
        (", ".toList.intercalate (query.fields.map Query.orderText) ++
          (" LIMIT ".toList ++ (toString query.limit).toList)) := by
      simp only [Query.tail, Query.whereText, hquery, List.nil_append, List.append_assoc]
      rfl
    simp only [readStatement, hscan, hkeys, Query.values, hquery, List.isEmpty_nil, if_true,
      Option.map_some]
    simp [Query.statement, hquery]
  | some bounds =>
    have hne : cases [] bounds ≠ [] := by
      obtain ⟨bound, rest, rfl⟩ := List.exists_cons_of_ne_nil (hafter bounds hquery)
      simp [cases]
    have hscan : scan .between query.tail = .word "WHERE" :: scan .between
        (casesText (cases [] bounds) ++ (" ORDER BY ".toList ++
          (", ".toList.intercalate (query.fields.map Query.orderText) ++
            (" LIMIT ".toList ++ (toString query.limit).toList)))) := by
      simp only [Query.tail, Query.whereText, hquery, List.append_assoc]
      rfl
    have hlexemes := lexemes_cases hne cases_ne_nil
      (", ".toList.intercalate (query.fields.map Query.orderText) ++
        (" LIMIT ".toList ++ (toString query.limit).toList))
    simp only [readStatement, hscan, Query.values, hquery, hlexemes,
      readOperand_cases hne cases_ne_nil, hkeys]
    simp [Query.statement, hquery]

end KeysetPaging.Sql
