/-
Gimbal/Proofs/JsonText.lean

A value is read back from its text, in either layout.

The round trip goes through the tokens of a value.  The parser takes the tokens
of a value, where one is due, to that value (`feed_tokens`).  The lexer takes a
text to the tokens that were written (`lexes_compactChars`,
`lexes_prettyChars`); here a numeral or a word is only known to end when the
next character comes, so what is said about a piece of text is said for every
way to go on after it that does not prolong it.

Not every `Json` can be written: a numeral must be spelled as one, and a string
must have a text.  `Json.Spelled` holds of those that can.
-/
import Mathlib
import Gimbal.Proofs.NumeralText

namespace Gimbal

namespace Json

/-! ### Values that can be written -/

/-- Values whose numerals are numerals and whose strings are texts. -/
inductive Spelled : Json → Prop
  | null : Spelled .null
  | bool (b : Bool) : Spelled (.bool b)
  | number {literal : String} (h : isNumeral literal.toList = true) :
      Spelled (.number literal)
  | string (s : String) : Spelled (.string (some s))
  | array {items : List Json} (h : ∀ v ∈ items, Spelled v) :
      Spelled (.array items)
  | object {fields : List (Option String × Json)}
      (hkey : ∀ f ∈ fields, f.1.isSome = true)
      (h : ∀ f ∈ fields, Spelled f.2) : Spelled (.object fields)

theorem spelled_natural (n : Nat) : Spelled (natural n) :=
  .number (by rw [String.toList_ofList]; exact isNumeral_digitText n)

theorem spelled_decimal (d : Option Decimal) : Spelled (decimal d) := by
  cases d with
  | none => exact .null
  | some d =>
    exact .number
      (by rw [String.toList_ofList]; exact (isNumeral_plainText d).1)

theorem spelled_record {fields : List (String × Json)}
    (h : ∀ f ∈ fields, Spelled f.2) :
    Spelled (record fields) := by
  refine .object ?_ ?_
  · intro f hf
    obtain ⟨g, -, rfl⟩ := List.mem_map.mp hf
    rfl
  · intro f hf
    obtain ⟨g, hg, rfl⟩ := List.mem_map.mp hf
    exact h g hg

/-! ### The tokens of a value -/

mutual

/-- The tokens of a value. -/
def tokens : Json → List Token
  | .null => [.null]
  | .bool b => [.bool b]
  | .number literal => [.number literal]
  | .string s => [.string s]
  | .array items => .openArray :: itemTokens items
  | .object fields => .openObject :: fieldTokens fields

/-- The tokens of items, up to the closing bracket. -/
def itemTokens : List Json → List Token
  | [] => [.closeArray]
  | [v] => tokens v ++ [.closeArray]
  | v :: rest => tokens v ++ .comma :: itemTokens rest

/-- The tokens of fields, up to the closing brace. -/
def fieldTokens : List (Option String × Json) → List Token
  | [] => [.closeObject]
  | [(k, v)] => .string k :: .colon :: (tokens v ++ [.closeObject])
  | (k, v) :: rest =>
    .string k :: .colon :: (tokens v ++ .comma :: fieldTokens rest)

end

/-! ### Parsing the tokens of a value -/

/-- The value `v` is read where one is due. -/
def Parses (v : Json) : Prop :=
  ∀ outer,
    v.tokens.foldlM Reading.feed (.value outer) = some (Reading.place outer v)

/-- Where an array may end, an item is read like any other: its first token is
no bracket that closes. -/
theorem feed_firstItem (outer : List Frame) (v : Json) (items : List Json) :
    (itemTokens (v :: items)).foldlM Reading.feed (.firstItem outer) =
      (itemTokens (v :: items)).foldlM Reading.feed
        (.value (.items [] :: outer)) := by
  cases items <;> cases v <;> simp [itemTokens, tokens, Reading.feed]

theorem feed_itemTokens {items : List Json} (h : ∀ v ∈ items, Parses v) :
    ∀ (v : Json) (outer : List Frame) (reversed : List Json), Parses v →
      (itemTokens (v :: items)).foldlM Reading.feed
        (.value (.items reversed :: outer)) =
        some (Reading.place outer
          (.array (reversed.reverse ++ v :: items))) := by
  -- on the items behind the one that is due: after it comes a bracket or a
  -- comma
  induction items with
  | nil =>
    intro v outer reversed hv
    simp [itemTokens, hv _, Reading.place, Reading.feed]
  | cons w items ih =>
    intro v outer reversed hv
    have hnext := ih (fun u hu => h u (List.mem_cons_of_mem w hu)) w outer
      (v :: reversed) (h w List.mem_cons_self)
    simp [itemTokens, hv _, Reading.place, Reading.feed] at hnext ⊢
    exact hnext

theorem feed_fieldTokens {fields : List (Option String × Json)}
    (h : ∀ f ∈ fields, Parses f.2) :
    ∀ (f : Option String × Json) (outer : List Frame)
      (reversed : List (Option String × Json))
      (first : Bool), Parses f.2 →
      (fieldTokens (f :: fields)).foldlM Reading.feed
        (.key outer reversed first) =
        some (Reading.place outer
          (.object (reversed.reverse ++ f :: fields))) := by
  -- as for the items, with a key in front of each
  induction fields with
  | nil =>
    rintro ⟨k, v⟩ outer reversed first hv
    cases first <;> simp [fieldTokens, hv _, Reading.place, Reading.feed]
  | cons g fields ih =>
    rintro ⟨k, v⟩ outer reversed first hv
    have hnext := ih (fun u hu => h u (List.mem_cons_of_mem g hu)) g outer
      ((k, v) :: reversed) false (h g List.mem_cons_self)
    cases first <;>
      simp [fieldTokens, hv _, Reading.place, Reading.feed] at hnext ⊢ <;>
      exact hnext

/-- The tokens of a value are read as the value. -/
theorem Spelled.parses {v : Json} (hv : Spelled v) : Parses v := by
  -- induction on the value: items and fields are read by the two lemmas above
  induction hv with
  | null | bool | number | string => intro outer; rfl
  | @array items _ ih =>
    intro outer
    cases items with
    | nil => rfl
    | cons v items =>
      show (itemTokens (v :: items)).foldlM Reading.feed (.firstItem outer) = _
      rw [feed_firstItem]
      exact feed_itemTokens (fun u hu => ih u (List.mem_cons_of_mem v hu)) v
        outer [] (ih v List.mem_cons_self)
  | @object fields _ _ ih =>
    intro outer
    cases fields with
    | nil => rfl
    | cons f fields =>
      exact feed_fieldTokens (fun u hu => ih u (List.mem_cons_of_mem f hu)) f
        outer [] true (ih f List.mem_cons_self)

end Json

/-! ### Lexing pieces of text -/

namespace Lexer

/-- The tokens of a text that the lexer has read up to here, from the last to
the first. -/
def lexFrom (s : Lexer) (cs : List Char) : Option (List Token) :=
  (s.feedAll cs).bind finish

theorem lexFrom_cons (s : Lexer) (c : Char) (cs : List Char) :
    s.lexFrom (c :: cs) = (s.feed c).bind (·.lexFrom cs) := by
  simp [lexFrom, feedAll, Option.bind_assoc]

theorem lexFrom_cons_of_feed {s s' : Lexer} {c : Char} (h : s.feed c = some s')
    (cs : List Char) :
    s.lexFrom (c :: cs) = s'.lexFrom cs := by
  rw [lexFrom_cons, h]
  rfl

theorem lexFrom_append_of_feedAll {s s' : Lexer} {cs : List Char}
    (h : s.feedAll cs = some s') (ds : List Char) :
    s.lexFrom (cs ++ ds) = s'.lexFrom ds := by
  rw [lexFrom, feedAll_append, h]
  rfl

/-- Whether a character prolongs a numeral or a word that stands before it. -/
def prolongs (c : Char) : Bool := numeralChar c || ('a' ≤ c && c ≤ 'z')

/-- What may follow a numeral or a word without being taken for a part of it. -/
def Stops (cs : List Char) : Prop := ∀ c ∈ cs.head?, prolongs c = false

theorem stops_nil : Stops [] := by
  intro c hc
  cases hc

theorem stops_cons {c : Char} (hc : prolongs c = false) (cs : List Char) :
    Stops (c :: cs) := by
  intro d hd
  rw [← Option.some.inj hd]
  exact hc

/-- The characters `cs`, between tokens and before anything that does not
prolong them, are lexed as the tokens `ts`. -/
def Lexes (cs : List Char) (ts : List Token) : Prop :=
  ∀ before rest, Stops rest →
    lexFrom ⟨.between, before⟩ (cs ++ rest) =
      lexFrom ⟨.between, ts.reverse ++ before⟩ rest

namespace Lexes

theorem nil : Lexes [] [] := fun _ _ _ => rfl

/-- A piece may follow another if it starts with a character that does not
prolong that one. -/
theorem append {cs ds : List Char} {c : Char} {ts us : List Token}
    (h : Lexes cs ts) (hc : prolongs c = false) (h' : Lexes (c :: ds) us) :
    Lexes (cs ++ c :: ds) (ts ++ us) := by
  intro before rest hrest
  rw [List.append_assoc, h before (c :: ds ++ rest) (stops_cons hc _),
    h' _ rest hrest, List.reverse_append, List.append_assoc]

/-- Nothing is needed between a mark and what follows. -/
theorem mark {c : Char} {t : Token} {ds : List Char} {us : List Token}
    (hc : ∀ before, feed ⟨.between, before⟩ c = some ⟨.between, t :: before⟩)
    (h : Lexes ds us) :
    Lexes (c :: ds) (t :: us) := by
  intro before rest hrest
  rw [List.cons_append, lexFrom_cons_of_feed (hc before), h _ rest hrest,
    List.reverse_cons, List.append_assoc]
  rfl

theorem comma {ds : List Char} {us : List Token} (h : Lexes ds us) :
    Lexes (',' :: ds) (.comma :: us) := mark (fun _ => rfl) h

theorem colon {ds : List Char} {us : List Token} (h : Lexes ds us) :
    Lexes (':' :: ds) (.colon :: us) := mark (fun _ => rfl) h

theorem blank {c : Char} {ds : List Char} {us : List Token}
    (hc : Lexer.blank c = true) (h : Lexes ds us) : Lexes (c :: ds) us := by
  intro before rest hrest
  have hfeed : feed ⟨.between, before⟩ c = some ⟨.between, before⟩ := if_pos hc
  rw [List.cons_append, lexFrom_cons_of_feed hfeed, h before rest hrest]

theorem space {ds : List Char} {us : List Token} (h : Lexes ds us) :
    Lexes (' ' :: ds) us :=
  blank rfl h

theorem spaces {ds : List Char} {us : List Token} (h : Lexes ds us) (n : Nat) :
    Lexes (List.replicate n ' ' ++ ds) us := by
  induction n with
  | zero => exact h
  | succ n ih => exact ih.space

theorem newLine {ds : List Char} {us : List Token} (h : Lexes ds us)
    (depth : Nat) :
    Lexes (Json.newLine depth ++ ds) us := blank rfl (h.spaces (2 * depth))

end Lexes

/-! ### Numerals and words -/

/-- A numeral ends where nothing prolongs it. -/
theorem lexFrom_number_of_stops {reversed rest : List Char} {ts : List Token}
    (h : isNumeral reversed.reverse = true) (hrest : Stops rest) :
    lexFrom ⟨.number reversed, ts⟩ rest =
      lexFrom ⟨.between, .number (String.ofList reversed.reverse) :: ts⟩
        rest := by
  have htoken :
      numberToken? reversed.reverse =
        some (.number (String.ofList reversed.reverse)) :=
    if_pos h
  -- the number ends with the text or before a character that cannot prolong it
  cases rest with
  | nil => simp [lexFrom, feedAll, finish, htoken]
  | cons c rest =>
    have hc := hrest c rfl
    rw [prolongs, Bool.or_eq_false_iff] at hc
    simp [lexFrom_cons, feed, hc.1, htoken]

theorem feedAll_number {cs : List Char} (h : ∀ c ∈ cs, numeralChar c = true)
    (reversed : List Char) (ts : List Token) :
    feedAll ⟨.number reversed, ts⟩ cs =
      some ⟨.number (cs.reverse ++ reversed), ts⟩ := by
  induction cs generalizing reversed with
  | nil => rfl
  | cons c cs ih =>
    have hfeed :
        feed ⟨.number reversed, ts⟩ c = some ⟨.number (c :: reversed), ts⟩ :=
      if_pos (h c List.mem_cons_self)
    have hrest :=
      ih (fun d hd => h d (List.mem_cons_of_mem c hd)) (c :: reversed)
    rw [feedAll, List.foldlM_cons, hfeed]
    simpa [feedAll] using hrest

theorem feed_between_of_numeral {c : Char} (hc : (c.isDigit || c = '-') = true)
    (ts : List Token) :
    feed ⟨.between, ts⟩ c = some ⟨.number [c], ts⟩ := by
  have hblank : Lexer.blank c = false := by
    rw [Bool.eq_false_iff]
    intro hblank
    simp only [Lexer.blank, Bool.or_eq_true, decide_eq_true_eq] at hblank
    rcases hblank with ((rfl | rfl) | rfl) | rfl <;> cases hc
  have hquote : c ≠ '"' := by
    rintro rfl
    cases hc
  show feedBetween ts c = _
  rw [feedBetween, if_neg (by rw [hblank]; decide), if_neg hquote, if_pos hc]

theorem lexes_number {cs : List Char} (h : isNumeral cs = true) :
    Lexes cs [.number (String.ofList cs)] := by
  obtain ⟨⟨c, ds, rfl, hc⟩, hall⟩ := exists_cons_of_isNumeral h
  intro before rest hrest
  have hpart :=
    feedAll_number (fun d hd => hall d (List.mem_cons_of_mem c hd)) [c] before
  have hback : (ds.reverse ++ [c]).reverse = c :: ds := by simp
  rw [List.cons_append,
    lexFrom_cons_of_feed (feed_between_of_numeral hc before),
    lexFrom_append_of_feedAll hpart,
    lexFrom_number_of_stops (by rwa [hback]) hrest, hback]
  rfl

/-- A word ends where nothing prolongs it. -/
theorem lexFrom_word_of_stops {reversed rest : List Char} {t : Token}
    {ts : List Token} (h : wordToken? reversed.reverse = some t)
    (hrest : Stops rest) :
    lexFrom ⟨.word reversed, ts⟩ rest = lexFrom ⟨.between, t :: ts⟩ rest := by
  cases rest with
  | nil => simp [lexFrom, feedAll, finish, h]
  | cons c rest =>
    have hc := hrest c rfl
    rw [prolongs, Bool.or_eq_false_iff] at hc
    have hletter : ¬('a' ≤ c ∧ c ≤ 'z') := by simpa using hc.2
    simp only [lexFrom_cons, feed, if_neg hletter, h, Option.bind_eq_bind,
      Option.bind_some]

theorem lexes_word {cs : List Char} {t : Token} (h : wordToken? cs = some t)
    (hfeed : ∀ before,
      feedAll ⟨.between, before⟩ cs = some ⟨.word cs.reverse, before⟩) :
    Lexes cs [t] := by
  intro before rest hrest
  rw [lexFrom_append_of_feedAll (hfeed before),
    lexFrom_word_of_stops (by rwa [List.reverse_reverse]) hrest]
  rfl

/-! ### Strings -/

/-- What has been spelled with nothing left open, from the last character to the
first. -/
def spelled (reversed : List Char) : Spelling := ⟨reversed, none, false⟩

theorem hexValue?_hexDigit {n : Nat} (hn : n < 16) :
    hexValue? (Json.hexDigit n) = some n := by
  interval_cases n <;> rfl

theorem feedAll_unicodeEscape {c : Char} (hc : c.toNat < 32)
    (reversed : List Char) (ts : List Token) :
    feedAll ⟨.string (spelled reversed), ts⟩
        ['\\', 'u', '0', '0', Json.hexDigit (c.toNat / 16),
          Json.hexDigit (c.toNat % 16)] =
      some ⟨.string (spelled (c :: reversed)), ts⟩ := by
  have hhigh : hexValue? (Json.hexDigit (c.toNat / 16)) = some (c.toNat / 16) :=
    hexValue?_hexDigit (by omega)
  have hlow : hexValue? (Json.hexDigit (c.toNat % 16)) = some (c.toNat % 16) :=
    hexValue?_hexDigit (by omega)
  have hzero : hexValue? '0' = some 0 := rfl
  -- a code below 32 is no part of a surrogate pair
  have hunit :
      (spelled reversed).pushUnit c.toNat = spelled (c :: reversed) := by
    rw [Spelling.pushUnit, if_neg (by omega), if_neg (by omega),
      Char.ofNat_toNat]
    rfl
  have hvalue : 16 * (c.toNat / 16) + c.toNat % 16 = c.toNat :=
    Nat.div_add_mod c.toNat 16
  simp [feedAll, feed, hhigh, hlow, hzero, hvalue, hunit]

/-- A character is read back from the way it is written. -/
theorem feedAll_escape (c : Char) (reversed : List Char) (ts : List Token) :
    feedAll ⟨.string (spelled reversed), ts⟩ (Json.escape c) =
      some ⟨.string (spelled (c :: reversed)), ts⟩ := by
  have hcode : ∀ n, c.toNat = n → c = Char.ofNat n := by
    rintro n rfl
    exact (Char.ofNat_toNat c).symm
  -- seven characters have escapes of their own, other control characters are
  -- written by their codes, and the rest stand for themselves
  rw [Json.escape]
  split
  next h => subst h; rfl
  split
  next h => subst h; rfl
  split
  next h => subst h; rfl
  split
  next h => subst h; rfl
  split
  next h => subst h; rfl
  split
  next h => rw [hcode 8 h]; rfl
  split
  next h => rw [hcode 12 h]; rfl
  split
  next h => exact feedAll_unicodeEscape h reversed ts
  next hquote hback _ _ _ _ _ hcontrol =>
    simp [feedAll, feed, hquote, hback, hcontrol]
    rfl

theorem feedAll_escapes (cs reversed : List Char) (ts : List Token) :
    feedAll ⟨.string (spelled reversed), ts⟩ (cs.flatMap Json.escape) =
      some ⟨.string (spelled (cs.reverse ++ reversed)), ts⟩ := by
  induction cs generalizing reversed with
  | nil => rfl
  | cons c cs ih =>
    rw [List.flatMap_cons, feedAll_append, feedAll_escape, Option.bind_some, ih]
    simp

theorem lexes_quoted (s : String) :
    Lexes (Json.quoted s) [.string (some s)] := by
  intro before rest _
  -- the two quotes open and close the string, whatever stands between
  have hopen :
      feed ⟨.between, before⟩ '"' = some ⟨.string (spelled []), before⟩ := rfl
  have hclose : feed ⟨.string (spelled s.toList.reverse), before⟩ '"' =
      some ⟨.between, .string (some s) :: before⟩ := by
    show some (Lexer.mk .between
      (.string (some (String.ofList s.toList.reverse.reverse)) :: before))
      = _
    rw [List.reverse_reverse, String.ofList_toList]
  have hinside := feedAll_escapes s.toList [] before
  rw [List.append_nil] at hinside
  rw [Json.quoted, List.cons_append, List.append_assoc,
    lexFrom_cons_of_feed hopen, lexFrom_append_of_feedAll hinside]
  exact lexFrom_cons_of_feed hclose rest

end Lexer

/-! ### The text of a value -/

namespace Json

open Lexer (Lexes)

theorem lexes_atom_null : Lexes ['n', 'u', 'l', 'l'] [.null] :=
  Lexer.lexes_word rfl fun _ => rfl

theorem lexes_atom_bool (b : Bool) : Lexes (atomText (.bool b)) [.bool b] := by
  cases b <;> exact Lexer.lexes_word rfl fun _ => rfl

theorem lexes_closeArray : Lexes [']'] [.closeArray] :=
  .mark (fun _ => rfl) .nil

theorem lexes_closeObject : Lexes ['\x7d'] [.closeObject] :=
  .mark (fun _ => rfl) .nil

theorem lexes_compactItems {items : List Json}
    (h : ∀ v ∈ items, Lexes v.compactChars v.tokens) :
    Lexes (compactItems items) (itemTokens items) := by
  induction items with
  | nil => exact lexes_closeArray
  | cons v items ih =>
    have hv := h v List.mem_cons_self
    cases items with
    | nil => exact hv.append rfl lexes_closeArray
    | cons w items =>
      have hrest := ih fun u hu => h u (List.mem_cons_of_mem v hu)
      exact hv.append rfl hrest.comma

theorem lexes_compactFields {fields : List (Option String × Json)}
    (hkey : ∀ f ∈ fields, f.1.isSome = true)
    (h : ∀ f ∈ fields, Lexes f.2.compactChars f.2.tokens) :
    Lexes (compactFields fields) (fieldTokens fields) := by
  -- induction on the fields; behind the last one comes the bracket
  induction fields with
  | nil => exact lexes_closeObject
  | cons f fields ih =>
    obtain ⟨k, v⟩ := f
    obtain ⟨k, rfl⟩ :=
      Option.isSome_iff_exists.mp (hkey (k, v) List.mem_cons_self)
    have hk : Lexes (keyText (some k)) [.string (some k)] :=
      Lexer.lexes_quoted k
    have hv := h (some k, v) List.mem_cons_self
    cases fields with
    | nil => exact hk.append rfl (hv.append rfl lexes_closeObject).colon
    | cons g fields =>
      have hrest := ih (fun u hu => hkey u (List.mem_cons_of_mem _ hu))
        fun u hu => h u (List.mem_cons_of_mem _ hu)
      exact hk.append rfl (hv.append rfl hrest.comma).colon

theorem Spelled.lexes_compactChars {v : Json} (hv : Spelled v) :
    Lexes v.compactChars v.tokens := by
  induction hv with
  | null => exact lexes_atom_null
  | bool b => exact lexes_atom_bool b
  | @number literal h =>
    have hnumber := Lexer.lexes_number h
    rwa [String.ofList_toList] at hnumber
  | string s => exact Lexer.lexes_quoted s
  | array _ ih => exact .mark (fun _ => rfl) (lexes_compactItems ih)
  | object hkey _ ih => exact .mark (fun _ => rfl) (lexes_compactFields hkey ih)

/-- A closing mark on a line of its own. -/
theorem lexes_closingLine {c : Char} {t : Token} (h : Lexes [c] [t])
    (depth : Nat) :
    Lexes ('\n' :: (List.replicate (2 * depth) ' ' ++ [c])) [t] :=
  h.newLine depth

theorem lexes_prettyItems (depth : Nat) {items : List Json}
    (h : ∀ v ∈ items, Lexes (v.prettyChars (depth + 1)) v.tokens) :
    Lexes (prettyItems depth items) (itemTokens items) := by
  induction items with
  | nil => exact lexes_closingLine lexes_closeArray depth
  | cons v items ih =>
    have hv := h v List.mem_cons_self
    cases items with
    | nil =>
      have hlines :=
        (hv.append rfl (lexes_closingLine lexes_closeArray depth)).newLine
          (depth + 1)
      simpa [prettyItems, itemTokens, newLine] using hlines
    | cons w items =>
      have hrest := ih fun u hu => h u (List.mem_cons_of_mem v hu)
      have hlines := (hv.append rfl hrest.comma).newLine (depth + 1)
      simpa [prettyItems, itemTokens, newLine] using hlines

theorem lexes_prettyFields (depth : Nat) {fields : List (Option String × Json)}
    (hkey : ∀ f ∈ fields, f.1.isSome = true)
    (h : ∀ f ∈ fields, Lexes (f.2.prettyChars (depth + 1)) f.2.tokens) :
    Lexes (prettyFields depth fields) (fieldTokens fields) := by
  induction fields with
  | nil => exact lexes_closingLine lexes_closeObject depth
  | cons f fields ih =>
    obtain ⟨k, v⟩ := f
    obtain ⟨k, rfl⟩ :=
      Option.isSome_iff_exists.mp (hkey (k, v) List.mem_cons_self)
    have hk : Lexes (keyText (some k)) [.string (some k)] :=
      Lexer.lexes_quoted k
    have hv := h (some k, v) List.mem_cons_self
    cases fields with
    | nil =>
      have hvalue :=
        (hv.append rfl (lexes_closingLine lexes_closeObject depth)).space
      have hlines := (hk.append rfl hvalue.colon).newLine (depth + 1)
      simpa [prettyFields, fieldTokens, newLine] using hlines
    | cons g fields =>
      have hrest := ih (fun u hu => hkey u (List.mem_cons_of_mem _ hu))
        fun u hu => h u (List.mem_cons_of_mem _ hu)
      have hvalue := (hv.append rfl hrest.comma).space
      have hlines := (hk.append rfl hvalue.colon).newLine (depth + 1)
      simpa [prettyFields, fieldTokens, newLine] using hlines

theorem Spelled.lexes_prettyChars {v : Json} (hv : Spelled v) :
    ∀ depth, Lexes (v.prettyChars depth) v.tokens := by
  induction hv with
  | null => exact fun _ => lexes_atom_null
  | bool b => exact fun _ => lexes_atom_bool b
  | @number literal h =>
    have hnumber := Lexer.lexes_number h
    rw [String.ofList_toList] at hnumber
    exact fun _ => hnumber
  | string s => exact fun _ => Lexer.lexes_quoted s
  | @array items _ ih =>
    intro depth
    cases items with
    | nil => exact .mark (fun _ => rfl) lexes_closeArray
    | cons v items =>
      exact .mark (fun _ => rfl) (lexes_prettyItems depth fun u hu => ih u hu _)
  | @object fields hkey _ ih =>
    intro depth
    cases fields with
    | nil => exact .mark (fun _ => rfl) lexes_closeObject
    | cons f fields =>
      exact .mark (fun _ => rfl)
        (lexes_prettyFields depth hkey fun u hu => ih u hu _)

/-! ### The round trips -/

/-- A text that is lexed as the tokens of a value holds that value. -/
theorem Spelled.parse?_eq_some {v : Json} (hv : Spelled v) {cs : List Char}
    (hcs : Lexes cs v.tokens) : parse? (String.ofList cs) = some v := by
  have hlex : lex cs = some v.tokens := by
    have hall := hcs [] [] Lexer.stops_nil
    rw [List.append_nil, List.append_nil] at hall
    show ((Lexer.start.feedAll cs).bind fun s => s.finish.bind fun ts =>
      some ts.reverse) = _
    rw [← Option.bind_assoc, ← Lexer.lexFrom, Lexer.start, hall]
    simp [Lexer.lexFrom, Lexer.feedAll, Lexer.finish]
  simp [parse?, String.toList_ofList, hlex, ofTokens?, hv.parses [],
    Reading.place, Reading.result?]

theorem Spelled.parse?_compact {v : Json} (hv : Spelled v) :
    parse? v.compact = some v :=
  hv.parse?_eq_some hv.lexes_compactChars

theorem Spelled.parse?_pretty {v : Json} (hv : Spelled v) :
    parse? v.pretty = some v :=
  hv.parse?_eq_some (hv.lexes_prettyChars 0)

end Json

end Gimbal
