import WordLang.Proofs.JsonText

/-!
# Texts of arrays and objects

The text of an array is made from the texts of its items, and that of an object from the texts of
its names and values, however these are spelled. What follows a complete text cannot change how it
is read, unless a numeral could go on with it; and a value is read in the same way whatever
containers are open around it.
-/
namespace WordLang.Json

/-! ## Tokens before more text -/

/-- Takes the same from the beginning of a text if `suffix` follows it. -/
def StopsBefore {α : Type} (suffix : List Char) (read : List Char → Option (α × List Char)) :
    Prop :=
  ∀ ⦃cs a rest⦄, read cs = some (a, rest) → read (cs ++ suffix) = some (a, rest ++ suffix)

theorem StopsBefore.map {α β : Type} {suffix : List Char}
    {read : List Char → Option (α × List Char)} (h : StopsBefore suffix read) (f : α → β) :
    StopsBefore suffix fun cs => (read cs).bind fun r => some (f r.1, r.2) := by
  intro cs b rest hread
  obtain ⟨⟨a, tail⟩, ha, heq⟩ := Option.bind_eq_some_iff.1 hread
  obtain ⟨rfl, rfl⟩ := Prod.mk.inj (Option.some.inj heq)
  simp [h ha]

/-- A literal is read up to its closing quote, whatever follows. -/
theorem stopsBefore_pieces (suffix : List Char) : StopsBefore suffix pieces := by
  intro cs ps rest h
  fun_induction pieces cs generalizing ps rest with
  | case1 | case3 | case5 | case7 => cases h
  | case2 cs =>
    obtain ⟨rfl, rfl⟩ := Prod.mk.inj (Option.some.inj h)
    exact pieces_quote _
  | case4 h₁ h₂ h₃ h₄ cs _ ih =>
    simp only [Option.bind_eq_bind, Option.bind_eq_some_iff] at h
    obtain ⟨u, hu, ⟨qs, tail⟩, hqs, heq⟩ := h
    obtain ⟨rfl, rfl⟩ := Prod.mk.inj (Option.some.inj heq)
    show pieces ('\\' :: 'u' :: h₁ :: h₂ :: h₃ :: h₄ :: (cs ++ suffix)) = _
    rw [pieces.eq_def]
    simp [hu, ih hqs]
  | case6 e cs hne _ ih =>
    simp only [Option.bind_eq_bind, Option.bind_eq_some_iff] at h
    obtain ⟨c, hc, ⟨qs, tail⟩, hqs, heq⟩ := h
    obtain ⟨rfl, rfl⟩ := Prod.mk.inj (Option.some.inj heq)
    show pieces ('\\' :: e :: (cs ++ suffix)) = _
    rw [pieces.eq_def]
    simp [hne, hc, ih hqs]
  | case8 c cs hquote hslash hcontrol ih =>
    simp only [Option.bind_eq_bind, Option.bind_eq_some_iff] at h
    obtain ⟨⟨qs, tail⟩, hqs, heq⟩ := h
    obtain ⟨rfl, rfl⟩ := Prod.mk.inj (Option.some.inj heq)
    rw [List.cons_append, pieces.eq_def]
    simp [hquote, hslash, hcontrol, ih hqs]

/-- A numeral begins with a digit or a sign. -/
theorem exists_of_numeral? {cs : List Char} {r : Token × List Char} (h : numeral? cs = some r) :
    ∃ c rest, cs = c :: rest ∧ (c.isDigit = true ∨ c = '-') := by
  cases cs with
  | nil => cases h
  | cons c cs =>
    refine ⟨c, cs, rfl, ?_⟩
    by_contra hc
    simp only [not_or, Bool.not_eq_true] at hc
    have hzero : c ≠ '0' := by
      rintro rfl
      exact absurd hc.1 (by decide)
    simp [numeral?, unsignedNumeral?, whole?, digits?, hc, hzero] at h

section Numerals

variable {suffix : List Char} (hs : EndsNumeral suffix)
include hs

theorem takeWhile_isDigit_append (cs : List Char) :
    (cs ++ suffix).takeWhile Char.isDigit = cs.takeWhile Char.isDigit ∧
      (cs ++ suffix).dropWhile Char.isDigit = cs.dropWhile Char.isDigit ++ suffix := by
  induction cs with
  | nil =>
    cases suffix with
    | nil => simp
    | cons c suffix => simp [(hs c rfl).1]
  | cons c cs ih => by_cases hc : c.isDigit <;> simp [hc, ih]

theorem stopsBefore_digits? : StopsBefore suffix digits? := by
  intro cs ds rest h
  obtain ⟨htake, hdrop⟩ := takeWhile_isDigit_append hs cs
  unfold digits? at h ⊢
  rw [htake, hdrop]
  split at h <;> simp_all

theorem stopsBefore_whole? : StopsBefore suffix whole? := by
  intro cs ds rest h
  cases cs with
  | nil => cases h
  | cons c cs =>
    by_cases hc : c = '0'
    · subst hc
      obtain ⟨rfl, rfl⟩ := Prod.mk.inj (Option.some.inj h)
      rfl
    · have hwhole (cs : List Char) : whole? (c :: cs) = digits? (c :: cs) := by simp [whole?, hc]
      rw [hwhole] at h
      rw [List.cons_append, hwhole]
      exact stopsBefore_digits? hs h

theorem stopsBefore_fraction? : StopsBefore suffix fraction? := by
  intro cs fs rest h
  cases cs with
  | nil =>
    obtain ⟨rfl, rfl⟩ := Prod.mk.inj (Option.some.inj h)
    exact fraction?_of_ends hs
  | cons c cs =>
    by_cases hc : c = '.'
    · subst hc
      exact (stopsBefore_digits? hs).map ('.' :: ·) h
    · have hnone (cs : List Char) : fraction? (c :: cs) = some ([], c :: cs) := by
        simp [fraction?, hc]
      rw [hnone] at h
      obtain ⟨rfl, rfl⟩ := Prod.mk.inj (Option.some.inj h)
      exact hnone _

theorem stopsBefore_exponent? : StopsBefore suffix exponent? := by
  intro cs es rest h
  fun_cases exponent? cs with
  | case1 =>
    obtain ⟨rfl, rfl⟩ := Prod.mk.inj (Option.some.inj h)
    exact exponent?_of_ends hs
  | case2 c hc => simp [exponent?, hc] at h
  | case3 c hc sign cs hsign =>
    have hread (cs : List Char) : exponent? (c :: sign :: cs) =
        (digits? cs).bind fun r => some (c :: sign :: r.1, r.2) := by
      simp [exponent?, hc, hsign]
    rw [hread] at h
    rw [List.cons_append, List.cons_append, hread]
    exact (stopsBefore_digits? hs).map (c :: sign :: ·) h
  | case4 c hc d cs hd =>
    have hread (cs : List Char) : exponent? (c :: d :: cs) =
        (digits? (d :: cs)).bind fun r => some (c :: r.1, r.2) := by
      simp [exponent?, hc, hd]
    rw [hread] at h
    rw [List.cons_append, List.cons_append, hread]
    exact (stopsBefore_digits? hs).map (c :: ·) h
  | case5 c cs hc =>
    have hnone (cs : List Char) : exponent? (c :: cs) = some ([], c :: cs) := by
      simp [exponent?, hc]
    rw [hnone] at h
    obtain ⟨rfl, rfl⟩ := Prod.mk.inj (Option.some.inj h)
    exact hnone _

theorem stopsBefore_unsignedNumeral? (negative : Bool) :
    StopsBefore suffix (unsignedNumeral? negative) := by
  intro cs t rest h
  simp only [unsignedNumeral?, Option.bind_eq_bind, Option.bind_eq_some_iff] at h
  obtain ⟨⟨ds, cs₁⟩, hds, ⟨fs, cs₂⟩, hfs, ⟨es, cs₃⟩, hes, h⟩ := h
  have hds := stopsBefore_whole? hs hds
  have hfs := stopsBefore_fraction? hs hfs
  have hes := stopsBefore_exponent? hs hes
  simp only [unsignedNumeral?, hds, hfs, hes, Option.bind_eq_bind, Option.bind_some]
  grind

theorem stopsBefore_numeral? : StopsBefore suffix numeral? := by
  intro cs t rest h
  cases cs with
  | nil => cases h
  | cons c cs =>
    by_cases hc : c = '-'
    · subst hc
      exact stopsBefore_unsignedNumeral? hs true h
    · have hnumeral (cs : List Char) : numeral? (c :: cs) = unsignedNumeral? false (c :: cs) := by
        simp [numeral?, hc]
      rw [hnumeral] at h
      rw [List.cons_append, hnumeral]
      exact stopsBefore_unsignedNumeral? hs false h

theorem stopsBefore_token? : StopsBefore suffix token? := by
  intro cs t rest h
  unfold token? at h
  split at h
  case h_10 cs =>
    exact (stopsBefore_pieces suffix).map (Token.str <| String.ofList <$> characters? ·) h
  case h_11 cs _ _ _ _ _ _ _ _ _ _ =>
    obtain ⟨c, cs, rfl, hc⟩ := exists_of_numeral? h
    rw [List.cons_append, token?_of_numeral hc]
    exact stopsBefore_numeral? hs h
  all_goals
    obtain ⟨rfl, rfl⟩ := Prod.mk.inj (Option.some.inj h)
    rfl

end Numerals

/-- A text that is cut into tokens is blank, or begins with a token after its blanks. -/
theorem tokensWithin_eq_some_iff {n : Nat} {cs : List Char} {ts : List Token} :
    tokensWithin n cs = some ts ↔ (cs.dropWhile isBlank = [] ∧ ts = []) ∨
      ∃ k t rest us, n = k + 1 ∧ cs.dropWhile isBlank ≠ [] ∧
        token? (cs.dropWhile isBlank) = some (t, rest) ∧ tokensWithin k rest = some us ∧
        ts = t :: us := by
  rw [tokensWithin.eq_def]
  cases hcs : cs.dropWhile isBlank with
  | nil => simp [eq_comm]
  | cons c cs =>
    cases n with
    | zero => simp
    | succ n =>
      simp only [Option.bind_eq_bind, Option.bind_eq_some_iff, Option.pure_def]
      grind

theorem tokensWithin_mono {n m : Nat} {cs : List Char} {ts : List Token} (hle : n ≤ m)
    (h : tokensWithin n cs = some ts) : tokensWithin m cs = some ts := by
  induction n generalizing m cs ts with
  | zero =>
    obtain hblank | ⟨k, _, _, _, hk, -⟩ := tokensWithin_eq_some_iff.1 h
    · exact tokensWithin_eq_some_iff.2 (.inl hblank)
    · omega
  | succ n ih =>
    obtain hblank | ⟨k, t, rest, us, hk, hne, ht, hus, hts⟩ := tokensWithin_eq_some_iff.1 h
    · exact tokensWithin_eq_some_iff.2 (.inl hblank)
    · obtain rfl : n = k := by omega
      have hrest : tokensWithin (m - 1) rest = some us := ih (by omega) hus
      exact tokensWithin_eq_some_iff.2
        (.inr ⟨m - 1, t, rest, us, by omega, hne, ht, hrest, hts⟩)

/-- Blanks in front do not matter. -/
theorem tokensWithin_append_of_blank {n : Nat} {cs ds : List Char}
    (h : cs.dropWhile isBlank = []) : tokensWithin n (cs ++ ds) = tokensWithin n ds := by
  have hdrop : (cs ++ ds).dropWhile isBlank = ds.dropWhile isBlank := by
    simp [List.dropWhile_append, h]
  rw [tokensWithin.eq_def, tokensWithin.eq_def n ds, hdrop]

/-- Two texts one after the other are cut one after the other, if no numeral runs on. -/
theorem tokensWithin_append {n m : Nat} {cs ds : List Char} {ts us : List Token}
    (hs : EndsNumeral ds) (hcs : tokensWithin n cs = some ts) (hds : tokensWithin m ds = some us) :
    tokensWithin (n + m) (cs ++ ds) = some (ts ++ us) := by
  induction n generalizing cs ts with
  | zero =>
    obtain ⟨hblank, rfl⟩ | ⟨k, _, _, _, hk, -⟩ := tokensWithin_eq_some_iff.1 hcs
    · exact (tokensWithin_append_of_blank hblank).trans (tokensWithin_mono (by omega) hds)
    · omega
  | succ n ih =>
    obtain ⟨hblank, rfl⟩ | ⟨k, t, rest, vs, hk, hne, ht, hvs, rfl⟩ :=
      tokensWithin_eq_some_iff.1 hcs
    · exact (tokensWithin_append_of_blank hblank).trans (tokensWithin_mono (by omega) hds)
    · obtain rfl : n = k := by omega
      have hdrop : (cs ++ ds).dropWhile isBlank = cs.dropWhile isBlank ++ ds := by
        simp [List.dropWhile_append, hne]
      refine tokensWithin_eq_some_iff.2 (.inr ⟨n + m, t, rest ++ ds, vs ++ us, by omega, ?_, ?_,
        ih hvs, rfl⟩)
      · simp [hdrop, hne]
      · rw [hdrop]
        exact stopsBefore_token? hs ht

theorem tokens?_append {cs ds : List Char} {ts us : List Token} (hs : EndsNumeral ds)
    (hcs : tokens? cs = some ts) (hds : tokens? ds = some us) :
    tokens? (cs ++ ds) = some (ts ++ us) := by
  rw [tokens?, List.length_append]
  exact tokensWithin_append hs hcs hds

/-- A bracket, a comma or a colon is a token of its own. -/
theorem tokens?_punctuation {u : Token} (hu : u.isPunctuation) {ds : List Char} {us : List Token}
    (hds : tokens? ds = some us) : tokens? (u.chars ++ ds) = some (u :: us) := by
  cases u with
  | openBrace | closeBrace | openBracket | closeBracket | comma | colon =>
    exact congrArg (Option.bind · fun us => some (_ :: us)) hds
  | _ => cases hu

/-- No numeral runs on into a bracket, a comma or a colon. -/
theorem tokens?_append_punctuation {u : Token} (hu : u.isPunctuation) {cs ds : List Char}
    {ts us : List Token} (hcs : tokens? cs = some ts) (hds : tokens? ds = some us) :
    tokens? (cs ++ (u.chars ++ ds)) = some (ts ++ u :: us) := by
  have hends : EndsNumeral u.chars := Token.apart_of_isPunctuation hu (.int 0) ⟨0, rfl⟩
  have hne : u.chars ≠ [] := by
    cases u with
    | openBrace | closeBrace | openBracket | closeBracket | comma | colon => simp [Token.chars]
    | _ => cases hu
  exact tokens?_append (hends.append hne ds) hcs (tokens?_punctuation hu hds)

/-! ## Values inside of containers -/

/-- The same expectation with the containers `base` open outside of all others. -/
def Expect.under (base : List Context) : Expect → Expect
  | .value stack => .value (stack ++ base)
  | .firstItem stack => .firstItem (stack ++ base)
  | .firstMember stack => .firstMember (stack ++ base)
  | .member stack members => .member (stack ++ base) members
  | .colon stack members name => .colon (stack ++ base) members name
  | .follow stack v => .follow (stack ++ base) v

/-- What comes next does not depend on the containers outside. -/
theorem next_under {e e' : Expect} {t : Token} (h : e.next t = some e') (base : List Context) :
    (e.under base).next t = some (e'.under base) := by
  cases e with
  | value | firstItem | firstMember | member | colon => cases t <;> cases h <;> rfl
  | follow stack v =>
    cases stack with
    | nil => cases t <;> cases h
    | cons container stack => cases container <;> cases t <;> cases h <;> rfl

theorem foldlM_under {e e' : Expect} {ts : List Token} (h : ts.foldlM Expect.next e = some e')
    (base : List Context) : ts.foldlM Expect.next (e.under base) = some (e'.under base) := by
  induction ts generalizing e with
  | nil =>
    obtain rfl : e = e' := by simpa using h
    rfl
  | cons t ts ih =>
    obtain ⟨next, hnext, hrest⟩ := Option.bind_eq_some_iff.1 h
    simp [next_under hnext base, ih hrest]

/-- The tokens of a value lead past it inside of any containers. -/
theorem foldlM_of_ofTokens? {ts : List Token} {v : Json} (h : ofTokens? ts = some v)
    (stack : List Context) : ts.foldlM Expect.next (.value stack) = some (.follow stack v) := by
  obtain ⟨final, hfinal, hresult⟩ := Option.bind_eq_some_iff.1 h
  obtain rfl : final = .follow [] v := by
    unfold Expect.result? at hresult
    split at hresult
    · rw [Option.some.inj hresult]
    · cases hresult
  exact foldlM_under hfinal stack

theorem exists_tokens_of_parse? {text : String} {v : Json} (h : parse? text = some v) :
    ∃ ts, tokens? text.toList = some ts ∧
      ∀ stack, ts.foldlM Expect.next (.value stack) = some (.follow stack v) := by
  obtain ⟨ts, hts, hv⟩ := Option.bind_eq_some_iff.1 h
  exact ⟨ts, hts, foldlM_of_ofTokens? hv⟩

/-- Tokens that begin an item do not close the array, so any may come first. -/
theorem foldlM_firstItem_of_value {ts : List Token} (hne : ts ≠ []) {stack : List Context}
    {e : Expect} (h : ts.foldlM Expect.next (.value (.arr [] :: stack)) = some e) :
    ts.foldlM Expect.next (.firstItem stack) = some e := by
  cases ts with
  | nil => exact absurd rfl hne
  | cons t ts => cases t <;> first | exact h | cases h

theorem foldlM_firstMember_of_member {ts : List Token} (hne : ts ≠ []) {stack : List Context}
    {e : Expect} (h : ts.foldlM Expect.next (.member stack []) = some e) :
    ts.foldlM Expect.next (.firstMember stack) = some e := by
  cases ts with
  | nil => exact absurd rfl hne
  | cons t ts => cases t <;> first | exact h | cases h

/-! ## Texts of containers -/

/-- An array of items with the given texts. -/
def arrayText (items : List String) : String := "[" ++ ",".intercalate items ++ "]"

def memberText (member : String × String) : String := member.1 ++ ":" ++ member.2

/-- An object of members whose names and values have the given texts. -/
def objectText (members : List (String × String)) : String :=
  "\x7b" ++ ",".intercalate (members.map memberText) ++ "\x7d"

/-- `text` is a string literal for `name`, perhaps among blanks. -/
def SpellsName (text name : String) : Prop := tokens? text.toList = some [.str (some name)]

/-- Items and the end of their array lead past the array. -/
theorem exists_tokens_items {texts : List String} {items : List Json} (hne : texts ≠ [])
    (h : List.Forall₂ (fun text v => parse? text = some v) texts items) :
    ∃ ts, tokens? ([','].intercalate (texts.map String.toList) ++ [']']) = some ts ∧ ts ≠ [] ∧
      ∀ before stack, ts.foldlM Expect.next (.value (.arr before :: stack)) =
        some (.follow stack (.arr (before.reverse ++ items))) := by
  induction h with
  | nil => exact absurd rfl hne
  | @cons text v texts items hv hrest ih =>
    obtain ⟨ts, hts, hlead⟩ := exists_tokens_of_parse? hv
    cases hrest with
    | nil =>
      refine ⟨ts ++ [.closeBracket], ?_, by simp, fun before stack => ?_⟩
      · have hend : tokens? [] = some [] := rfl
        simpa [Token.chars] using tokens?_append_punctuation (u := .closeBracket) rfl hts hend
      · simp [hlead, Expect.next]
    | cons hw hrest =>
      obtain ⟨us, hus, -, hleads⟩ := ih (by simp)
      refine ⟨ts ++ .comma :: us, ?_, by simp, fun before stack => ?_⟩
      · simpa [Token.chars, List.intercalate_cons_cons] using
          tokens?_append_punctuation (u := .comma) rfl hts hus
      · have := hleads (v :: before) stack
        simpa [hlead, Expect.next] using this

theorem parse?_of_tokens {text : String} {ts : List Token} {v : Json}
    (hts : tokens? text.toList = some ts)
    (h : ts.foldlM Expect.next (.value []) = some (.follow [] v)) : parse? text = some v := by
  simp [parse?, hts, ofTokens?, h, Expect.result?]

/-- The text of an array is read as the array of what the texts of its items are read as. -/
theorem parse?_arrayText {texts : List String} {items : List Json}
    (h : List.Forall₂ (fun text v => parse? text = some v) texts items) :
    parse? (arrayText texts) = some (.arr items) := by
  rcases eq_or_ne texts [] with rfl | hne
  · cases h
    rfl
  · obtain ⟨ts, hts, hne, hleads⟩ := exists_tokens_items hne h
    have htokens : tokens? (arrayText texts).toList = some (.openBracket :: ts) := by
      simpa [arrayText, Token.chars] using tokens?_punctuation (u := .openBracket) rfl hts
    exact parse?_of_tokens htokens (foldlM_firstItem_of_value hne (hleads [] []))

/-- A name, a colon and a value lead past a member. -/
theorem exists_tokens_member {name : String} {member : String × String} {v : Json}
    (hname : SpellsName member.1 name) (hv : parse? member.2 = some v) :
    ∃ ts, tokens? (memberText member).toList = some ts ∧
      ∀ stack before, ts.foldlM Expect.next (.member stack before) =
        some (.follow (.obj before (some name) :: stack) v) := by
  obtain ⟨ts, hts, hlead⟩ := exists_tokens_of_parse? hv
  refine ⟨.str (some name) :: .colon :: ts, ?_, fun stack before => ?_⟩
  · have htokens := tokens?_append_punctuation (u := .colon) rfl hname hts
    simpa [memberText, Token.chars] using htokens
  · simp [Expect.next, hlead]

/-- A text of a member: its name, and what its value is read as. -/
def SpellsMember (text : String × String) (member : String × Json) : Prop :=
  SpellsName text.1 member.1 ∧ parse? text.2 = some member.2

/-- Members and the end of their object lead past the object. -/
theorem exists_tokens_members {texts : List (String × String)} {members : List (String × Json)}
    (hne : texts ≠ []) (h : List.Forall₂ SpellsMember texts members) :
    ∃ ts, tokens? ([','].intercalate ((texts.map memberText).map String.toList) ++ ['\x7d']) =
        some ts ∧ ts ≠ [] ∧
      ∀ before stack, ts.foldlM Expect.next (.member stack before) =
        some (.follow stack (.obj (before.reverse ++ members.map fun m => (some m.1, m.2)))) := by
  induction h with
  | nil => exact absurd rfl hne
  | @cons text member texts members hmember hrest ih =>
    obtain ⟨ts, hts, hlead⟩ := exists_tokens_member hmember.1 hmember.2
    cases hrest with
    | nil =>
      refine ⟨ts ++ [.closeBrace], ?_, by simp, fun before stack => ?_⟩
      · have hend : tokens? [] = some [] := rfl
        simpa [Token.chars] using tokens?_append_punctuation (u := .closeBrace) rfl hts hend
      · simp [hlead, Expect.next]
    | cons _ _ =>
      obtain ⟨us, hus, -, hleads⟩ := ih (by simp)
      refine ⟨ts ++ .comma :: us, ?_, by simp, fun before stack => ?_⟩
      · simpa [Token.chars, List.intercalate_cons_cons] using
          tokens?_append_punctuation (u := .comma) rfl hts hus
      · have := hleads ((some member.1, member.2) :: before) stack
        simpa [hlead, Expect.next] using this

/-- The text of an object is read as the object of the names that it spells and of what the texts of
the values are read as. -/
theorem parse?_objectText {texts : List (String × String)} {members : List (String × Json)}
    (h : List.Forall₂ SpellsMember texts members) :
    parse? (objectText texts) = some (.obj (members.map fun m => (some m.1, m.2))) := by
  rcases eq_or_ne texts [] with rfl | hne
  · cases h
    rfl
  · obtain ⟨ts, hts, hne, hleads⟩ := exists_tokens_members hne h
    have htokens : tokens? (objectText texts).toList = some (.openBrace :: ts) := by
      simpa [objectText, Token.chars] using tokens?_punctuation (u := .openBrace) rfl hts
    exact parse?_of_tokens htokens (foldlM_firstMember_of_member hne (hleads [] []))

/-- The text of a name in quotes. -/
def nameText (name : String) : String := String.ofList (Token.chars (.str (some name)))

theorem spellsName_nameText (name : String) : SpellsName (nameText name) name := by
  have hplain : ∀ t ∈ [Token.str (some name)], t.IsPlain := by simp [Token.IsPlain]
  simpa [SpellsName, nameText] using tokens?_chars hplain (.singleton _)

end WordLang.Json
