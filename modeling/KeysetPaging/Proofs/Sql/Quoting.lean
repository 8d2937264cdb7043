import KeysetPaging.Proofs.Sql.After

/-! # Names stay between their quotes

The names of a table and of sort fields may hold any characters: quotes, question marks, semicolons
or what starts a comment elsewhere. Taken apart into tokens, a query over a table still has a fixed
form, in which names stand where names belong and hold what they held before their quotes were
doubled. `Template` writes that form down, from the parts of the table, the fields and the key
alone. Whatever is said of the names and of the question marks of a query is then said of the form.
-/

namespace KeysetPaging

/-- The pieces of a text are those that the list of its characters is split into. -/
theorem Text.cutAt_eq_splitOn (mark : Char) : ∀ cs : List Char, cutAt mark cs = cs.splitOn mark
  | [] => rfl
  | c :: cs => by
    have hcons : (c :: cs).splitOn mark =
        if c = mark then [] :: cs.splitOn mark else (cs.splitOn mark).modifyHead (c :: ·) := by
      simp only [List.splitOn, List.splitOnP_cons_eq_if_modifyHead, beq_iff_eq]
    rw [cutAt, cutAt_eq_splitOn mark cs, hcons]
    obtain ⟨piece, rest, hsplit⟩ := List.exists_cons_of_ne_nil (List.splitOn_ne_nil mark cs)
    rw [hsplit]
    rfl

namespace Sql

/-! ## The form of a query -/

namespace Template

/-- A column of the rows. -/
def column (name : String) : List Token :=
  [.word "q", .mark '.', .name name]

/-- The row agrees with the key in a field. -/
def same (field : SortField) : List Token :=
  column field.name ++ [.word "IS", .word "NOT", .word "DISTINCT", .word "FROM", .mark '?']

/-- The row is after the key in a field. -/
def after (field : SortField) (part : Bookmark) : List Token :=
  match field.direction, part.isNull with
  | .ascending, true => column field.name ++ [.word "IS", .word "NOT", .word "NULL"]
  | .ascending, false => column field.name ++ [.mark '>', .mark '?']
  | .descending, true => [.word "FALSE"]
  | .descending, false =>
      .mark '(' :: (column field.name ++ [.mark '<', .mark '?', .word "OR"] ++
        (column field.name ++ [.word "IS", .word "NULL"])) ++ [.mark ')']

/-- Conditions between brackets, with a word between each two of them. -/
def bracketed (joint : String) (conditions : List (List Token)) : List Token :=
  .mark '(' :: [Token.word joint].intercalate conditions ++ [.mark ')']

/-- The cases in which a row is after a key: one for each field, in which the row agrees with the
key in the fields before it. -/
def cases (before : List SortField) : List (SortField × Bookmark) → List (List Token)
  | [] => []
  | (field, part) :: rest =>
      bracketed "AND" (before.map same ++ [after field part]) :: cases (before ++ [field]) rest

/-- The condition on the rows, if there is a key. -/
def condition : Option (List (SortField × Bookmark)) → List Token
  | none => []
  | some key => .word "WHERE" :: bracketed "OR" (cases [] key)

/-- The place of a field in the order of the rows. -/
def order (field : SortField) : List Token :=
  column field.name ++ match field.direction with
    | .ascending => [.word "ASC", .word "NULLS", .word "FIRST"]
    | .descending => [.word "DESC", .word "NULLS", .word "LAST"]

/-- The name of a table in its parts. -/
def table (parts : List String) : List Token :=
  [Token.mark '.'].intercalate (parts.map fun part => [.name part])

/-- What stands in front of the name of a table. -/
def opening : List Token :=
  [.word "SELECT", .word "CAST", .mark '(', .word "to_json", .mark '(', .word "q", .mark ')',
    .word "AS", .word "VARCHAR", .mark ')', .word "FROM", .mark '(', .word "SELECT", .mark '*',
    .word "FROM"]

/-- What stands behind the name of a table. -/
def closing : List Token :=
  [.mark ')', .word "AS", .word "q"]

/-- A query over a table. -/
def query (parts : List String) (fields : List SortField)
    (key : Option (List (SortField × Bookmark))) (limit : Nat) : List Token :=
  opening ++ table parts ++ closing ++ condition key ++ [.word "ORDER", .word "BY"] ++
    [Token.mark ','].intercalate (fields.map order) ++ [.word "LIMIT", .word (toString limit)]

end Template

/-! ## Texts that are read as tokens -/

/-- In front of what ends every token, a text is read as tokens. -/
def Scans (text : List Char) (tokens : List Token) : Prop :=
  ∀ rest, Delimited rest → scan .between (text ++ rest) = tokens ++ scan .between rest

/-- A text that ends every token in front of it, and that is read as tokens whatever follows. -/
structure Splits (text : List Char) (tokens : List Token) : Prop where
  delimited : ∀ rest, Delimited (text ++ rest)
  scans : ∀ rest, scan .between (text ++ rest) = tokens ++ scan .between rest

theorem Scans.nil : Scans [] [] :=
  fun _ _ => rfl

/-- A text that starts with one that splits ends every token in front of it. -/
theorem Splits.delimited_append {first : List Char} {tokens : List Token}
    (h : Splits first tokens) (second rest : List Char) : Delimited (first ++ second ++ rest) := by
  rw [List.append_assoc]
  exact h.delimited _

/-- Two texts are read one after the other when the second one ends every token. -/
theorem Scans.append {first second : List Char} {tokens others : List Token}
    (hfirst : Scans first tokens) (hdelimited : ∀ rest, Delimited (second ++ rest))
    (hsecond : Scans second others) : Scans (first ++ second) (tokens ++ others) := by
  intro rest hrest
  rw [List.append_assoc, hfirst _ (hdelimited rest), hsecond rest hrest, List.append_assoc]

/-- A text that splits is read before whatever comes next. -/
theorem Splits.append {first second : List Char} {tokens others : List Token}
    (hfirst : Splits first tokens) (hsecond : Scans second others) :
    Scans (first ++ second) (tokens ++ others) := by
  intro rest hrest
  rw [List.append_assoc, hfirst.scans, hsecond rest hrest, List.append_assoc]

/-- Texts with what splits between them are read one after another. -/
theorem Scans.intercalate {separator : List Char} {between : List Token}
    (hseparator : Splits separator between) {texts : List (List Char)}
    {tokens : List (List Token)} (h : List.Forall₂ Scans texts tokens) :
    Scans (separator.intercalate texts) (between.intercalate tokens) := by
  induction h with
  | nil => exact .nil
  | cons hfirst hrest ih =>
    cases hrest with
    | nil => simpa using hfirst
    | cons =>
      rw [List.intercalate_cons_cons, List.intercalate_cons_cons, List.append_assoc,
        List.append_assoc]
      exact hfirst.append (hseparator.delimited_append _) (hseparator.append ih)

/-- A text between brackets is read between brackets. -/
theorem Scans.bracketed {text : List Char} {tokens : List Token} (h : Scans text tokens) :
    Scans ('(' :: text ++ [')']) (.mark '(' :: tokens ++ [.mark ')']) := by
  intro rest _
  rw [List.append_assoc, List.cons_append, List.singleton_append]
  change .mark '(' :: scan .between (text ++ ')' :: rest) = _
  rw [h _ (delimited_cons rfl rest)]
  simp only [List.cons_append, List.append_assoc, List.nil_append]
  rfl

/-- A column is read with a text that splits behind it. -/
theorem Splits.column {text : List Char} {tokens : List Token} (h : Splits text tokens)
    (name : String) : Scans (Condition.columnText name ++ text) (Template.column name ++ tokens) :=
  Scans.append (fun _ hrest => scan_columnText name hrest) h.delimited fun rest _ => h.scans rest

/-- A column is read with a text that splits and with what follows it. -/
theorem Splits.column_append {text second : List Char} {tokens others : List Token}
    (h : Splits text tokens) (hsecond : Scans second others) (name : String) :
    Scans (Condition.columnText name ++ (text ++ second))
      (Template.column name ++ (tokens ++ others)) :=
  Scans.append (fun _ hrest => scan_columnText name hrest) (h.delimited_append second)
    (h.append hsecond)

/-- A word is read as itself. -/
theorem scans_word (word : String) (h : word.toList ≠ [] ∧ word.toList.all isWordChar) :
    Scans word.toList [.word word] := by
  obtain ⟨c, cs, hcs⟩ := List.exists_cons_of_ne_nil h.1
  have hword : word = String.ofList (c :: cs) := by rw [← hcs, String.ofList_toList]
  intro rest hrest
  rw [hcs, scan_between_word (hcs ▸ h.2) hrest, ← hword]
  rfl

/-! ## Conditions -/

/-- A part of a key is bound to the field that it is for. -/
structure Bound.Binds (key : SortField × Bookmark) (bound : Bound) : Prop where
  field_eq : bound.field = key.1
  value_eq : Value.ofBookmark key.1 key.2 = .ok bound.value

/-- Null is bound for null, and for nothing else. -/
theorem Bound.Binds.null_iff {key : SortField × Bookmark} {bound : Bound} (h : bound.Binds key) :
    bound.value = .null ↔ key.2.isNull := by
  rw [Value.eq_null_iff_of_ofBookmark h.value_eq]
  cases key.2 <;> simp [Bookmark.isNull]

theorem splits_same : Splits " IS NOT DISTINCT FROM ?".toList
    [.word "IS", .word "NOT", .word "DISTINCT", .word "FROM", .mark '?'] where
  delimited _ := delimited_cons rfl _
  scans _ := rfl

theorem splits_above : Splits " > ?".toList [.mark '>', .mark '?'] where
  delimited _ := delimited_cons rfl _
  scans _ := rfl

theorem splits_below : Splits " < ? OR ".toList [.mark '<', .mark '?', .word "OR"] where
  delimited _ := delimited_cons rfl _
  scans _ := rfl

theorem scans_null : Scans "NULL".toList [.word "NULL"] :=
  scans_word "NULL" (by decide)

theorem Bound.scans_same (bound : Bound) :
    Scans bound.same.text (Template.same bound.field) :=
  splits_same.column bound.field.name

/-- The condition for what is after a key in a field is read as the form of it. -/
theorem Bound.Binds.scans_after {key : SortField × Bookmark} {bound : Bound}
    (h : bound.Binds key) : Scans bound.after.text (Template.after key.1 key.2) := by
  have hnull := h.null_iff
  rw [Template.after, ← h.field_eq]
  cases hpart : key.2.isNull with
  | true =>
    rw [after, hnull.mpr hpart]
    cases bound.field.direction with
    | ascending =>
      have hwords : Splits " IS NOT ".toList [.word "IS", .word "NOT"] :=
        ⟨fun _ => delimited_cons rfl _, fun _ => rfl⟩
      exact hwords.column_append scans_null bound.field.name
    | descending => exact scans_word "FALSE" (by decide)
  | false =>
    have hvalue : bound.value ≠ .null := by
      rw [ne_eq, hnull, hpart]
      simp
    rw [after_of_ne_null hvalue]
    cases bound.field.direction with
    | ascending => exact splits_above.column bound.field.name
    | descending =>
      have hwords : Splits " IS ".toList [.word "IS"] :=
        ⟨fun _ => delimited_cons rfl _, fun _ => rfl⟩
      have htext : (Condition.belowOrNull bound.field.name bound.value).text =
          '(' :: (Condition.columnText bound.field.name ++ (" < ? OR ".toList ++
            (Condition.columnText bound.field.name ++ (" IS ".toList ++ "NULL".toList)))) ++
              [')'] := by
        simp [Condition.text]
      have heither := (splits_below.column_append
        (hwords.column_append scans_null bound.field.name) bound.field.name).bracketed
      rw [htext]
      simpa using heither

theorem splits_and : Splits " AND ".toList [.word "AND"] where
  delimited _ := delimited_cons rfl _
  scans _ := rfl

theorem splits_or : Splits " OR ".toList [.word "OR"] where
  delimited _ := delimited_cons rfl _
  scans _ := rfl

/-- The cases of a key are read as the form of them, after those of the parts before. -/
theorem scans_cases {key : List (SortField × Bookmark)} {bounds : List Bound}
    (h : List.Forall₂ Bound.Binds key bounds)
    (before : List Bound) :
    List.Forall₂ Scans ((cases (before.map Bound.same) bounds).map caseText)
      (Template.cases (before.map (·.field)) key) := by
  induction h generalizing before with
  | nil => exact .nil
  | @cons part bound _ _ hbound _ ih =>
    have hbefore : List.Forall₂ Scans ((before.map Bound.same).map Condition.text)
        ((before.map (·.field)).map Template.same) := by
      simp only [List.forall₂_map_left_iff, List.forall₂_map_right_iff]
      exact List.forall₂_same.mpr fun bound _ => bound.scans_same
    have hcase : Scans (caseText (before.map Bound.same ++ [bound.after]))
        (Template.bracketed "AND"
          ((before.map (·.field)).map Template.same ++ [Template.after part.1 part.2])) := by
      rw [caseText, List.map_append, List.map_singleton]
      exact (Scans.intercalate splits_and
        (List.rel_append hbefore (.cons hbound.scans_after .nil))).bracketed
    have hrest := ih (before ++ [bound])
    rw [List.map_append, List.map_append, List.map_singleton, List.map_singleton,
      hbound.field_eq] at hrest
    exact .cons hcase hrest

/-! ## Queries -/

/-- The place of a field in the order of the rows is read as the form of it. -/
theorem scans_order (field : SortField) :
    Scans (Query.orderText field) (Template.order field) := by
  rw [Query.orderText, Template.order]
  cases field.direction with
  | ascending =>
    have hwords : Splits " ASC NULLS ".toList [.word "ASC", .word "NULLS"] :=
      ⟨fun _ => delimited_cons rfl _, fun _ => rfl⟩
    exact hwords.column_append (scans_word "FIRST" (by decide)) field.name
  | descending =>
    have hwords : Splits " DESC NULLS ".toList [.word "DESC", .word "NULLS"] :=
      ⟨fun _ => delimited_cons rfl _, fun _ => rfl⟩
    exact hwords.column_append (scans_word "LAST" (by decide)) field.name

/-- A name between quotes is one token. -/
theorem scans_identifier (name : List Char) :
    Scans (identifier name) [.name (String.ofList name)] := by
  intro rest hrest
  have hquoted : scan (.quoted []) (doubled name ++ '"' :: rest) =
      .name (String.ofList name) :: scan .between rest := scan_doubled hrest
  rw [List.singleton_append, ← hquoted, identifier, List.append_assoc, List.cons_append]
  rfl

/-- The parts of a table between its full stops. -/
def tableParts (table : String) : List String :=
  (table.toList.splitOn '.').map String.ofList

theorem scans_tableName (table : String) :
    Scans (tableName table) (Template.table (tableParts table)) := by
  have hdot : Splits ['.'] [.mark '.'] := ⟨fun _ => delimited_cons rfl _, fun _ => rfl⟩
  rw [tableName, Template.table, tableParts, Text.cutAt_eq_splitOn, List.map_map]
  refine Scans.intercalate hdot ?_
  simp only [List.forall₂_map_left_iff, List.forall₂_map_right_iff]
  exact List.forall₂_same.mpr fun part _ => scans_identifier part

theorem splits_order : Splits " ORDER BY ".toList [.word "ORDER", .word "BY"] where
  delimited _ := delimited_cons rfl _
  scans _ := rfl

/-- What stands in front of the order of the rows is read as the form of the condition. -/
theorem splits_where {query : Query} {key : Option (List (SortField × Bookmark))}
    (h : Option.Rel (List.Forall₂ Bound.Binds) key query.after) :
    Splits (query.whereText ++ " ORDER BY ".toList)
      (Template.condition key ++ [.word "ORDER", .word "BY"]) := by
  rw [Query.whereText]
  generalize query.after = after at h
  cases h with
  | none => exact splits_order
  | @some key bounds hbounds =>
    have hwhere : Splits " WHERE ".toList [.word "WHERE"] :=
      ⟨fun _ => delimited_cons rfl _, fun _ => rfl⟩
    have hcases : Scans (casesText (cases [] bounds))
        (Template.bracketed "OR" (Template.cases [] key)) :=
      (Scans.intercalate splits_or (scans_cases hbounds [])).bracketed
    refine ⟨fun rest => ?_, fun rest => ?_⟩
    · rw [List.append_assoc]
      exact hwhere.delimited_append _ _
    · rw [List.append_assoc, List.append_assoc, hwhere.scans, hcases _ (splits_order.delimited _),
        splits_order.scans]
      simp [Template.condition]

/-- **A query over a table has a fixed form.** Its tokens are those of the form, whatever
characters are in the names of the table and of the fields. -/
theorem Query.scan_text {query : Query} {table : String} (hbase : query.base = .table table)
    {key : Option (List (SortField × Bookmark))}
    (h : Option.Rel (List.Forall₂ Bound.Binds) key query.after) :
    scan .between query.text.toList
      = Template.query (tableParts table) query.fields key query.limit := by
  have hcomma : Splits ", ".toList [.mark ','] := ⟨fun _ => delimited_cons rfl _, fun _ => rfl⟩
  have hlimit : Splits " LIMIT ".toList [.word "LIMIT"] :=
    ⟨fun _ => delimited_cons rfl _, fun _ => rfl⟩
  have hrows : Scans ") AS q".toList Template.closing := by
    have has : Splits ") AS ".toList [.mark ')', .word "AS"] :=
      ⟨fun _ => delimited_cons rfl _, fun _ => rfl⟩
    exact has.append (scans_word "q" (by decide))
  have horders : Scans (", ".toList.intercalate (query.fields.map orderText))
      ([Token.mark ','].intercalate (query.fields.map Template.order)) := by
    refine Scans.intercalate hcomma ?_
    simp only [List.forall₂_map_left_iff, List.forall₂_map_right_iff]
    exact List.forall₂_same.mpr fun field _ => scans_order field
  have hwhere := splits_where h
  have htext : query.text.toList = "SELECT CAST(to_json(q) AS VARCHAR) FROM (".toList ++
      ("SELECT * FROM ".toList ++ (tableName table ++ (") AS q".toList ++
        ((query.whereText ++ " ORDER BY ".toList) ++
          (", ".toList.intercalate (query.fields.map orderText) ++
            (" LIMIT ".toList ++ (toString query.limit).toList)))))) := by
    have hselect : query.base.text = "SELECT * FROM ".toList ++ tableName table := by
      rw [hbase]
      rfl
    rw [query.text_eq, String.toList_ofList]
    unfold Base.opening tail
    rw [hselect]
    simp only [List.append_assoc]
  have hopening : ∀ rest, scan .between
      ("SELECT CAST(to_json(q) AS VARCHAR) FROM (".toList ++ ("SELECT * FROM ".toList ++ rest)) =
        Template.opening ++ scan .between rest := fun _ => rfl
  have hclosing : ∀ rest, Delimited (") AS q".toList ++ rest) := fun _ => delimited_cons rfl _
  -- From left to right, each part begins with what ends the last token of the part before.
  rw [htext, hopening, scans_tableName table _ (hclosing _), hrows _ (hwhere.delimited _),
    hwhere.scans, horders _ (hlimit.delimited _), hlimit.scans, scan_toString, Template.query]
  simp only [List.append_assoc, List.singleton_append]

/-! ## What the form says -/

/-- The name that a token is. -/
def Token.name? : Token → Option String
  | .name text => some text
  | _ => none

/-- A token that a query may have outside of its names: a word, or one of a few marks. None of them
starts a comment or a text, and none ends the query. -/
def Token.Plain : Token → Prop
  | .word _ | .name _ => True
  | .mark c => c ∈ ['(', ')', '.', '*', ',', '<', '>', '?']
  | .unclosed => False

/-- For each question mark of a query, the last name in front of it. -/
def asked (last : Option String) : List Token → List (Option String)
  | [] => []
  | .name text :: rest => asked (some text) rest
  | .mark c :: rest => if c = '?' then last :: asked last rest else asked last rest
  | _ :: rest => asked last rest

theorem length_asked {last : Option String} {tokens : List Token} :
    (asked last tokens).length = tokens.count (.mark '?') := by
  induction tokens generalizing last with
  | nil => rfl
  | cons token rest ih =>
    cases token with
    | mark c =>
      rw [asked, List.count_cons]
      split_ifs <;> simp_all
    | name | word | unclosed => simp [asked, ih]

/-- After whatever comes before them, tokens ask for columns, and what follows goes on asking after
the last name among them. -/
def Asks (tokens : List Token) (columns : List String) : Prop :=
  ∀ last rest, ∃ last', asked last (tokens ++ rest) = columns.map some ++ asked last' rest

theorem Asks.append {tokens others : List Token} {columns further : List String}
    (h : Asks tokens columns) (hothers : Asks others further) :
    Asks (tokens ++ others) (columns ++ further) := by
  intro last rest
  obtain ⟨between, hbetween⟩ := h last (others ++ rest)
  obtain ⟨after, hafter⟩ := hothers between rest
  exact ⟨after, by rw [List.append_assoc, hbetween, hafter, List.map_append, List.append_assoc]⟩

/-- Without a question mark nothing is asked for. -/
theorem asks_nil {tokens : List Token} (h : ∀ token ∈ tokens, token ≠ .mark '?') :
    Asks tokens [] := by
  intro last rest
  induction tokens generalizing last with
  | nil => exact ⟨last, rfl⟩
  | cons token tokens ih =>
    obtain ⟨htoken, htokens⟩ := List.forall_mem_cons.mp h
    rw [List.cons_append]
    cases token with
    | name text => exact ih htokens (some text)
    | mark c =>
      have hc : c ≠ '?' := by simpa using htoken
      rw [asked, if_neg hc]
      exact ih htokens last
    | word | unclosed => exact ih htokens last

/-- One list more, with what asks for nothing behind it. -/
theorem Asks.intercalate_cons {between tokens : List Token} {others : List (List Token)}
    {columns further : List String} (hbetween : Asks between []) (h : Asks tokens columns)
    (hothers : Asks (between.intercalate others) further) :
    Asks (between.intercalate (tokens :: others)) (columns ++ further) := by
  cases others with
  | nil => simpa using h.append hothers
  | cons => simpa using (h.append hbetween).append hothers

/-- What is chosen of lists with what nothing is chosen of between them is what is chosen of each. -/
theorem filterMap_intercalate {α β : Type} {f : α → Option β} {between : List α}
    (hbetween : between.filterMap f = []) : ∀ {lists : List (List α)},
      (between.intercalate lists).filterMap f = lists.flatMap (List.filterMap f)
  | [] => rfl
  | [list] => by simp
  | list :: next :: rest => by
    rw [List.intercalate_cons_cons, List.filterMap_append, List.filterMap_append, hbetween,
      filterMap_intercalate hbetween, List.append_nil, ← List.flatMap_cons]

/-- What holds in lists and between them holds in all of them together. -/
theorem forall_mem_intercalate {α : Type} {P : α → Prop} {between : List α}
    (hbetween : ∀ x ∈ between, P x) : ∀ {lists : List (List α)},
      (∀ list ∈ lists, ∀ x ∈ list, P x) → ∀ x ∈ between.intercalate lists, P x
  | [], _ => by simp
  | [list], h => by simpa using h
  | list :: next :: rest, h => by
    obtain ⟨hlist, hrest⟩ := List.forall_mem_cons.mp h
    rw [List.intercalate_cons_cons]
    simp only [List.forall_mem_append]
    exact ⟨⟨hlist, hbetween⟩, forall_mem_intercalate hbetween hrest⟩

namespace Template

/-- The parts of the key that are compared, in the order of their question marks: in each case those
of the fields before, and that of the field itself unless it is null. -/
def parameters (before : List (SortField × Bookmark)) :
    List (SortField × Bookmark) → List (SortField × Bookmark)
  | [] => []
  | key :: rest =>
      before ++ (if key.2.isNull then [] else [key]) ++ parameters (before ++ [key]) rest

/-- The names in the condition on what is after a key in a field. What is before a value may be
null, and the column is named twice. -/
def afterNames (field : SortField) (part : Bookmark) : List String :=
  match field.direction, part.isNull with
  | .ascending, _ => [field.name]
  | .descending, true => []
  | .descending, false => [field.name, field.name]

/-- The names in the cases of a key. -/
def caseNames (before : List SortField) : List (SortField × Bookmark) → List String
  | [] => []
  | (field, part) :: rest =>
      before.map (·.name) ++ afterNames field part ++ caseNames (before ++ [field]) rest

theorem asks_same (field : SortField) : Asks (same field) [field.name] :=
  fun _ _ => ⟨some field.name, by simp [same, column, asked]⟩

theorem asks_after (field : SortField) (part : Bookmark) :
    Asks (after field part) (if part.isNull then [] else [field.name]) := by
  rw [after]
  cases field.direction <;> cases part.isNull
  case descending.true => exact asks_nil (by simp)
  all_goals exact fun _ _ => ⟨some field.name, by simp [column, asked]⟩

/-- Brackets and the words between conditions ask for nothing themselves. -/
theorem asks_bracketed {joint : String} {conditions : List (List Token)} {columns : List String}
    (h : Asks ([Token.word joint].intercalate conditions) columns) :
    Asks (bracketed joint conditions) columns := by
  have hopen : Asks [.mark '('] [] := asks_nil (by decide)
  have hclose : Asks [.mark ')'] [] := asks_nil (by decide)
  simpa [bracketed] using (hopen.append h).append hclose

/-- A case asks for the fields before, and for the field itself unless its part is null. -/
theorem asks_case (before : List (SortField × Bookmark)) (field : SortField) (part : Bookmark) :
    Asks (bracketed "AND" ((before.map (·.1)).map same ++ [after field part]))
      ((before ++ if part.isNull then [] else [(field, part)]).map (·.1.name)) := by
  have hand : Asks [.word "AND"] [] := asks_nil (by decide)
  refine asks_bracketed ?_
  induction before with
  | nil =>
    have hafter := asks_after field part
    cases hpart : part.isNull <;> simpa [hpart] using hafter
  | cons earlier before ih =>
    exact Asks.intercalate_cons hand (asks_same earlier.1) ih

/-- The cases of a key ask for its parameters. -/
theorem asks_cases (before : List (SortField × Bookmark)) (key : List (SortField × Bookmark)) :
    Asks ([Token.word "OR"].intercalate (cases (before.map (·.1)) key))
      ((parameters before key).map (·.1.name)) := by
  have hor : Asks [.word "OR"] [] := asks_nil (by decide)
  induction key generalizing before with
  | nil => exact fun last _ => ⟨last, rfl⟩
  | cons first rest ih =>
    have hrest := ih (before ++ [first])
    rw [List.map_append, List.map_singleton] at hrest
    rw [parameters, List.map_append]
    exact Asks.intercalate_cons hor (asks_case before first.1 first.2) hrest

/-- The question marks of a query ask for the parameters of its key. -/
theorem asked_query (parts : List String) (fields : List SortField)
    (key : Option (List (SortField × Bookmark))) (limit : Nat) :
    asked none (query parts fields key limit)
      = (key.elim [] (parameters [])).map fun parameter => some parameter.1.name := by
  have htable : Asks (table parts) [] := by
    refine asks_nil (forall_mem_intercalate (by decide) ?_)
    simp
  have horder : Asks ([Token.mark ','].intercalate (fields.map order)) [] := by
    refine asks_nil (forall_mem_intercalate (by decide) ?_)
    simp only [List.mem_map, forall_exists_index, and_imp, forall_apply_eq_imp_iff₂, order, column]
    intro field _
    cases field.direction <;> simp
  have hcondition : Asks (condition key) ((key.elim [] (parameters [])).map (·.1.name)) := by
    cases key with
    | none => exact asks_nil (by decide)
    | some key =>
      have hwhere : Asks [.word "WHERE"] [] := asks_nil (by decide)
      exact hwhere.append (asks_bracketed (asks_cases [] key))
  have hopening : Asks opening [] := asks_nil (by decide)
  have hclosing : Asks closing [] := asks_nil (by decide)
  have hby : Asks [.word "ORDER", .word "BY"] [] := asks_nil (by decide)
  have hlimit : Asks [.word "LIMIT", .word (toString limit)] [] := asks_nil (by simp)
  obtain ⟨last, hasked⟩ := ((((((hopening.append htable).append hclosing).append hcondition).append
    hby).append horder).append hlimit) none []
  rw [List.append_nil] at hasked
  rw [query, hasked]
  simp [asked]

/-- Brackets and the words between conditions hold no names. -/
theorem names_bracketed (joint : String) (conditions : List (List Token)) :
    (bracketed joint conditions).filterMap Token.name?
      = conditions.flatMap (List.filterMap Token.name?) := by
  have hconditions : ([Token.word joint].intercalate conditions).filterMap Token.name?
      = conditions.flatMap (List.filterMap Token.name?) := filterMap_intercalate rfl
  rw [bracketed, List.cons_append, List.filterMap_cons_none rfl, List.filterMap_append, hconditions]
  exact List.append_nil _

theorem names_after (field : SortField) (part : Bookmark) :
    (after field part).filterMap Token.name? = afterNames field part := by
  rw [after, afterNames]
  cases field.direction <;> cases part.isNull <;> rfl

theorem names_cases (before : List SortField) (key : List (SortField × Bookmark)) :
    (cases before key).flatMap (List.filterMap Token.name?) = caseNames before key := by
  induction key generalizing before with
  | nil => rfl
  | cons first rest ih =>
    have hsame : (before.map same).flatMap (List.filterMap Token.name?) = before.map (·.name) := by
      rw [List.flatMap_map, List.map_eq_flatMap]
      rfl
    rw [cases, List.flatMap_cons, ih, names_bracketed, List.flatMap_append, hsame,
      List.flatMap_singleton, names_after, caseNames]

/-- The names of a query are the parts of the table, those of the condition, and the fields. -/
theorem names_query (parts : List String) (fields : List SortField)
    (key : Option (List (SortField × Bookmark))) (limit : Nat) :
    (query parts fields key limit).filterMap Token.name?
      = parts ++ key.elim [] (caseNames []) ++ fields.map (·.name) := by
  have htable : (table parts).filterMap Token.name? = parts := by
    rw [table, filterMap_intercalate rfl, List.flatMap_map]
    exact List.flatMap_singleton' parts
  have horder : ([Token.mark ','].intercalate (fields.map order)).filterMap Token.name?
      = fields.map (·.name) := by
    rw [filterMap_intercalate rfl, List.flatMap_map, List.map_eq_flatMap]
    refine congrArg (List.flatMap · fields) (funext fun field => ?_)
    rw [order]
    cases field.direction <;> rfl
  have hcondition : (condition key).filterMap Token.name? = key.elim [] (caseNames []) := by
    cases key with
    | none => rfl
    | some key =>
      change (bracketed "OR" (cases [] key)).filterMap Token.name? = caseNames [] key
      rw [names_bracketed, names_cases]
  have hopening : opening.filterMap Token.name? = [] := rfl
  have hclosing : closing.filterMap Token.name? = [] := rfl
  have hby : [.word "ORDER", .word "BY"].filterMap Token.name? = [] := rfl
  have hlimit : [.word "LIMIT", .word (toString limit)].filterMap Token.name? = [] := rfl
  simp only [query, List.filterMap_append, hopening, htable, hclosing, hcondition, hby, horder,
    hlimit, List.nil_append, List.append_nil]

/-- Brackets around what is plain, with a word between, are plain. -/
theorem plain_bracketed {joint : String} {conditions : List (List Token)}
    (h : ∀ condition ∈ conditions, ∀ token ∈ condition, token.Plain) :
    ∀ token ∈ bracketed joint conditions, token.Plain := by
  have hconditions : ∀ token ∈ [Token.word joint].intercalate conditions, token.Plain :=
    forall_mem_intercalate (by simp [Token.Plain]) h
  simp only [bracketed, List.cons_append, List.forall_mem_cons, List.forall_mem_append]
  exact ⟨by simp [Token.Plain], hconditions, by simp [Token.Plain]⟩

theorem plain_cases (before : List SortField) (key : List (SortField × Bookmark)) :
    ∀ condition ∈ cases before key, ∀ token ∈ condition, token.Plain := by
  induction key generalizing before with
  | nil => simp [cases]
  | cons first rest ih =>
    have hafter : ∀ token ∈ after first.1 first.2, token.Plain := by
      rw [after]
      cases first.1.direction <;> cases first.2.isNull <;> simp [column, Token.Plain]
    refine List.forall_mem_cons.mpr ⟨plain_bracketed ?_, ih _⟩
    simp only [List.forall_mem_append, List.forall_mem_map, List.forall_mem_singleton]
    exact ⟨fun field _ => by simp [same, column, Token.Plain], hafter⟩

/-- A query is plain, whatever its names hold. -/
theorem plain_query (parts : List String) (fields : List SortField)
    (key : Option (List (SortField × Bookmark))) (limit : Nat) :
    ∀ token ∈ query parts fields key limit, token.Plain := by
  have htable : ∀ token ∈ table parts, token.Plain :=
    forall_mem_intercalate (by simp [Token.Plain]) (by simp [Token.Plain])
  have horder : ∀ token ∈ [Token.mark ','].intercalate (fields.map order), token.Plain := by
    refine forall_mem_intercalate (by simp [Token.Plain]) ?_
    simp only [List.forall_mem_map, order]
    intro field _
    cases field.direction <;> simp [column, Token.Plain]
  have hcondition : ∀ token ∈ condition key, token.Plain := by
    cases key with
    | none => simp [condition]
    | some key =>
      refine List.forall_mem_cons.mpr ⟨trivial, plain_bracketed (plain_cases [] key)⟩
  simp only [query, List.forall_mem_append]
  exact ⟨⟨⟨⟨⟨⟨by simp [opening, Token.Plain], htable⟩, by simp [closing, Token.Plain]⟩, hcondition⟩,
    by simp [Token.Plain]⟩, horder⟩, by simp [Token.Plain]⟩

end Template

/-! ## Queries of a source of rows -/

/-- A value is bound for a part of a key. -/
def Value.BoundFor (parameter : SortField × Bookmark) (value : Value) : Prop :=
  ofBookmark parameter.1 parameter.2 = .ok value

/-- A key that is bound has a part for each field, and each part is bound to its field. -/
theorem binds_of_bind {fields : List SortField} {b : Bookmark} {bounds : List Bound}
    (h : bind fields b = .ok bounds) :
    b.keyParts.length = fields.length ∧
      List.Forall₂ Bound.Binds (fields.zip b.keyParts) bounds := by
  rw [bind_eq] at h
  split_ifs at h with hlength
  refine ⟨hlength, (mapM_eq_ok_iff.mp h).imp fun part bound hbound => ?_⟩
  cases hvalue : Value.ofBookmark part.1 part.2 with
  | error e =>
    rw [hvalue] at hbound
    cases hbound
  | ok value =>
    rw [hvalue] at hbound
    obtain rfl := Except.ok.inj hbound
    exact ⟨rfl, hvalue⟩

/-- The values of the cases of a key are bound for its parameters. -/
theorem values_cases {key : List (SortField × Bookmark)} {bounds : List Bound}
    (h : List.Forall₂ Bound.Binds key bounds)
    {earlierKey : List (SortField × Bookmark)} {earlier : List Bound}
    (hearlier : List.Forall₂ Bound.Binds earlierKey earlier) :
    List.Forall₂ Value.BoundFor (Template.parameters earlierKey key)
      ((cases (earlier.map Bound.same) bounds).flatten.flatMap Condition.values) := by
  -- A case repeats the values of all fields before its own, so these are carried along.
  induction h generalizing earlierKey earlier with
  | nil => exact .nil
  | @cons part bound _ _ hbound _ ih =>
    have hsame : List.Forall₂ Value.BoundFor earlierKey
        ((earlier.map Bound.same).flatMap Condition.values) := by
      have hvalues : (earlier.map Bound.same).flatMap Condition.values = earlier.map (·.value) := by
        rw [List.flatMap_map, List.map_eq_flatMap]
        rfl
      rw [hvalues, List.forall₂_map_right_iff]
      exact hearlier.imp fun _ _ h => h.value_eq
    have hafter : List.Forall₂ Value.BoundFor (if part.2.isNull then [] else [part])
        bound.after.values := by
      have hnull := hbound.null_iff
      split_ifs with hpart
      · rw [Bound.after, hnull.mpr hpart]
        cases bound.field.direction <;> exact .nil
      · rw [Bound.after_of_ne_null (mt hnull.mp hpart)]
        cases bound.field.direction <;> exact .cons hbound.value_eq .nil
    have hrest := ih (List.rel_append hearlier (.cons hbound .nil))
    rw [List.map_append, List.map_singleton] at hrest
    rw [Template.parameters, cases, List.flatten_cons, List.flatMap_append, List.flatMap_append,
      List.flatMap_singleton]
    exact List.rel_append (List.rel_append hsame hafter) hrest

/-- A query over a table keeps its names between their quotes. Its tokens are those of the form; no
name is left open, and outside of names there are words and a few marks; the names are the parts of
the table, those of the condition and the fields. There is a question mark for each value, the name
in front of it is the column of a part of the key, and the value is bound for that part. -/
structure Query.Quoted (query : Query) (parts : List String) (fields : List SortField)
    (key : Option (List (SortField × Bookmark))) (limit : Nat) : Prop where
  tokens : scan .between query.text.toList = Template.query parts fields key limit
  plain : ∀ token ∈ scan .between query.text.toList, token.Plain
  names : (scan .between query.text.toList).filterMap Token.name?
    = parts ++ key.elim [] (Template.caseNames []) ++ fields.map (·.name)
  count : (scan .between query.text.toList).count (.mark '?') = query.values.length
  asked : asked none (scan .between query.text.toList)
    = (key.elim [] (Template.parameters [])).map fun parameter => some parameter.1.name
  bound : List.Forall₂ Value.BoundFor (key.elim [] (Template.parameters [])) query.values

/-- A query over a table whose values are bound for the parts of a key keeps its names between
their quotes. -/
theorem Query.quoted {query : Query} {table : String} (hbase : query.base = .table table)
    {key : Option (List (SortField × Bookmark))}
    (h : Option.Rel (List.Forall₂ Bound.Binds) key query.after) :
    query.Quoted (tableParts table) query.fields key query.limit := by
  have hscan := scan_text hbase h
  have hasked := Template.asked_query (tableParts table) query.fields key query.limit
  have hbound : List.Forall₂ Value.BoundFor (key.elim [] (Template.parameters []))
      query.values := by
    rw [values]
    generalize query.after = after at h
    cases h with
    | none => exact .nil
    | some hbounds => exact values_cases hbounds .nil
  constructor
  case tokens => exact hscan
  case plain =>
    rw [hscan]
    exact Template.plain_query _ _ _ _
  case names =>
    rw [hscan]
    exact Template.names_query _ _ _ _
  case count =>
    rw [hscan, ← length_asked, hasked, List.length_map, hbound.length_eq]
  case asked =>
    rw [hscan]
    exact hasked
  case bound => exact hbound

/-- **Names cannot escape their quotes.** Whatever characters are in the name of a table and in the
names of the sort fields that a source of rows is made for, whatever the place that a query is
built for and whatever the limit, the query is taken apart into the tokens of the fixed form. The
key has a part for each field. -/
theorem RowSource.query_quoted {table : String} {fields : List SortField} {rows : RowSource}
    (hrows : make? (.table table) fields = .ok rows) {place : Option Bookmark} {limit : Nat}
    {query : Query} (hquery : rows.query? place limit = .ok query) :
    query.Quoted ((table.toList.splitOn '.').map String.ofList) fields
        (place.map fun b => fields.zip b.keyParts) (min limit maxLimit) ∧
      ∀ b ∈ place, b.keyParts.length = fields.length := by
  obtain rfl : rows = ⟨.table table, fields⟩ := by
    rw [make?] at hrows
    split_ifs at hrows
    split at hrows
    · cases hrows
    · exact (Except.ok.inj hrows).symm
  cases place with
  | none =>
    obtain rfl := Except.ok.inj hquery
    exact ⟨Query.quoted rfl .none, by simp⟩
  | some b =>
    cases hbind : bind fields b with
    | error e =>
      rw [query?, hbind] at hquery
      cases hquery
    | ok bounds =>
      obtain ⟨hlength, hbinds⟩ := binds_of_bind hbind
      rw [query?, hbind] at hquery
      obtain rfl := Except.ok.inj hquery
      refine ⟨Query.quoted rfl (.some hbinds), ?_⟩
      rintro _ ⟨⟩
      exact hlength

/-- Sort fields whose names look like the end of a name, of a query and of a comment. -/
def oddFields : List SortField :=
  [{ name := "a\"?" }, { name := ";--", direction := .descending }, { name := "*/" }]

/-- A query with a key over a table with quotes in its name has the question marks that its key
needs, and no others. -/
theorem RowSource.oddFields_quoted :
    ∃ rows query, make? (.table "my \"own\".t?;--") oddFields = .ok rows ∧
      rows.query? (some (.tuple [.int 3, .text "\"", .null])) 9 = .ok query ∧
      (scan .between query.text.toList).filterMap Token.name? =
        ["my \"own\"", "t?;--", "a\"?", "a\"?", ";--", ";--", "a\"?", ";--", "*/", "a\"?", ";--",
          "*/"] ∧
      asked none (scan .between query.text.toList) =
        [some "a\"?", some "a\"?", some ";--", some "a\"?", some ";--"] ∧
      query.values.length = 5 := by
  have hrows : make? (.table "my \"own\".t?;--") oddFields
      = .ok ⟨.table "my \"own\".t?;--", oddFields⟩ := rfl
  obtain ⟨query, hquery⟩ : ∃ query, query? ⟨.table "my \"own\".t?;--", oddFields⟩
      (some (.tuple [.int 3, .text "\"", .null])) 9 = .ok query := ⟨_, rfl⟩
  have hquoted := (query_quoted hrows hquery).1
  refine ⟨_, query, hrows, hquery, ?_, ?_, ?_⟩
  · rw [hquoted.names]
    rfl
  · rw [hquoted.asked]
    rfl
  · rw [← hquoted.bound.length_eq]
    rfl

end Sql

end KeysetPaging
