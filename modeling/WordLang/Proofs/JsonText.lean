import Mathlib.Data.List.Chain
import WordLang.Json.Text

/-!
# JSON texts read back

The shortest text of a value is read as that value again. It falls into the tokens that it was
written from, since an integer is always followed by a bracket or a comma; and the tokens of a value
lead the reader past that value, whatever containers are open.

A numeral that is not an integer is kept as it was found, so values that hold one are left out.

The brackets of the text that are open at once are as many as the value is deep.
-/
namespace WordLang.Json

/-! ## Strings -/

theorem hexValue?_hexDigit : ∀ n < 16, hexValue? (hexDigit n) = some n := by decide

/-- A character is written with a name after a backslash, by its number, or as it is. -/
theorem escape_cases (c : Char) :
    (∃ e, escape c = ['\\', e] ∧ e ≠ 'u' ∧ escaped? e = some c) ∨
    (c.toNat < 0x20 ∧ escape c =
      ['\\', 'u', '0', '0', hexDigit (c.toNat / 16), hexDigit (c.toNat % 16)]) ∨
    (¬ c.toNat < 0x20 ∧ c ≠ '"' ∧ c ≠ '\\' ∧ escape c = [c]) := by
  unfold escape
  split_ifs with hquote hslash hb ht hn hf hr hcontrol
  case pos => exact .inl ⟨_, rfl, by decide, by rw [hquote]; rfl⟩
  case pos => exact .inl ⟨_, rfl, by decide, by rw [hslash]; rfl⟩
  case pos => exact .inl ⟨_, rfl, by decide, by rw [hb]; rfl⟩
  case pos => exact .inl ⟨_, rfl, by decide, by rw [ht]; rfl⟩
  case pos => exact .inl ⟨_, rfl, by decide, by rw [hn]; rfl⟩
  case pos => exact .inl ⟨_, rfl, by decide, by rw [hf]; rfl⟩
  case pos => exact .inl ⟨_, rfl, by decide, by rw [hr]; rfl⟩
  case pos => exact .inr (.inl ⟨hcontrol, rfl⟩)
  case neg => exact .inr (.inr ⟨hcontrol, hquote, hslash, rfl⟩)

/-- The number of a control character is read back. -/
theorem unit?_hexDigit {n : Nat} (hn : n < 0x20) :
    unit? '0' '0' (hexDigit (n / 16)) (hexDigit (n % 16)) = some n := by
  have hzero : hexValue? '0' = some 0 := by decide
  have hhigh : hexValue? (hexDigit (n / 16)) = some (n / 16) := hexValue?_hexDigit _ (by omega)
  have hlow : hexValue? (hexDigit (n % 16)) = some (n % 16) := hexValue?_hexDigit _ (by omega)
  simp only [unit?, hzero, hhigh, hlow, Option.bind_eq_bind, Option.bind_some, Option.pure_def,
    Option.some.injEq]
  omega

/-- A written character is read as one piece, which denotes it. -/
theorem exists_piece (c : Char) : ∃ piece,
    (∀ {cs rest ps}, pieces cs = some (ps, rest) →
      pieces (escape c ++ cs) = some (piece :: ps, rest)) ∧
    ∀ ps, characters? (piece :: ps) = (c :: ·) <$> characters? ps := by
  obtain ⟨e, he, hu, hc⟩ | ⟨hcontrol, he⟩ | ⟨hcontrol, hquote, hslash, he⟩ := escape_cases c
  · refine ⟨.char c, fun {cs rest ps} h => ?_, fun ps => rfl⟩
    rw [he]
    show pieces ('\\' :: e :: cs) = _
    rw [pieces.eq_def]
    simp [hu, hc, h]
  · refine ⟨.unit c.toNat, fun {cs rest ps} h => ?_, fun ps => ?_⟩
    · rw [he]
      show pieces ('\\' :: 'u' :: '0' :: '0' :: _ :: _ :: cs) = _
      rw [pieces.eq_def]
      simp [unit?_hexDigit hcontrol, h]
    · have hlow : isLowSurrogate c.toNat = false := by grind [isLowSurrogate]
      have hhigh : isHighSurrogate c.toNat = false := by grind [isHighSurrogate]
      rw [characters?.eq_def]
      simp [hlow, hhigh, Char.ofNat_toNat]
  · refine ⟨.char c, fun {cs rest ps} h => ?_, fun ps => rfl⟩
    rw [he, List.singleton_append, pieces.eq_def]
    simp [hquote, hslash, hcontrol, h]

theorem pieces_quote (rest : List Char) : pieces ('"' :: rest) = some ([], rest) := by
  rw [pieces.eq_def]
  simp

/-- A written string is read up to its closing quote. -/
theorem exists_pieces (cs rest : List Char) :
    ∃ ps, pieces (cs.flatMap escape ++ '"' :: rest) = some (ps, rest) ∧
      characters? ps = some cs := by
  induction cs with
  | nil => exact ⟨[], pieces_quote rest, rfl⟩
  | cons c cs ih =>
    obtain ⟨ps, hps, hchars⟩ := ih
    obtain ⟨piece, hpiece, hdenotes⟩ := exists_piece c
    refine ⟨piece :: ps, ?_, ?_⟩
    · rw [List.flatMap_cons, List.append_assoc]
      exact hpiece hps
    · rw [hdenotes, hchars]
      rfl

/-! ## Numerals -/

/-- No numeral goes on with this text. -/
def EndsNumeral (cs : List Char) : Prop :=
  ∀ c ∈ cs.head?, c.isDigit = false ∧ c ≠ '.' ∧ c ≠ 'e' ∧ c ≠ 'E'

theorem EndsNumeral.append {cs : List Char} (h : EndsNumeral cs) (hne : cs ≠ [])
    (rest : List Char) : EndsNumeral (cs ++ rest) := by
  obtain ⟨c, cs, rfl⟩ := List.exists_cons_of_ne_nil hne
  exact h

/-- Only zero is written with a zero in front. -/
theorem head?_toDigits_ne {n : Nat} (hn : 0 < n) : (Nat.toDigits 10 n).head? ≠ some '0' := by
  induction n using Nat.strong_induction_on with
  | _ n ih =>
    rw [Nat.toDigits_eq_if (by decide)]
    split
    · simpa using Nat.pos_iff_ne_zero.1 hn
    · have hhead : (Nat.toDigits 10 (n / 10)).head? ≠ some '0' := ih (n / 10) (by omega) (by omega)
      rw [List.head?_append_of_ne_nil _ Nat.toDigits_ne_nil]
      exact hhead

theorem digits?_append {ds rest : List Char} (hne : ds ≠ [])
    (hd : ∀ c ∈ ds, c.isDigit = true) (hr : EndsNumeral rest) :
    digits? (ds ++ rest) = some (ds, rest) := by
  have hrest : rest.takeWhile Char.isDigit = [] ∧ rest.dropWhile Char.isDigit = rest := by
    cases rest with
    | nil => simp
    | cons c rest =>
      have hc := (hr c rfl).1
      simp [hc]
  unfold digits?
  rw [List.takeWhile_append_of_pos hd, List.dropWhile_append_of_pos hd, hrest.1, hrest.2,
    List.append_nil]
  obtain ⟨d, ds, rfl⟩ := List.exists_cons_of_ne_nil hne
  rfl

theorem whole?_toDigits (n : Nat) {rest : List Char} (hr : EndsNumeral rest) :
    whole? (Nat.toDigits 10 n ++ rest) = some (Nat.toDigits 10 n, rest) := by
  have hdigit : ∀ c ∈ Nat.toDigits 10 n, c.isDigit = true := fun c hc =>
    Nat.isDigit_of_mem_toDigits (by decide) (by decide) hc
  obtain ⟨d, ds, hds⟩ := List.exists_cons_of_ne_nil (Nat.toDigits_ne_nil (n := n) (b := 10))
  have hread := digits?_append (Nat.toDigits_ne_nil (n := n) (b := 10)) hdigit hr
  rcases Nat.eq_zero_or_pos n with rfl | hn
  · simp [Nat.toDigits_zero, whole?]
  · have hd : d ≠ '0' := by
      have hhead := head?_toDigits_ne hn
      rw [hds] at hhead
      simpa using hhead
    rw [hds] at hread ⊢
    rw [← hread, List.cons_append, whole?]
    simpa using hd

theorem fraction?_of_ends {rest : List Char} (hr : EndsNumeral rest) :
    fraction? rest = some ([], rest) := by
  unfold fraction?
  split
  · exact absurd rfl (hr _ rfl).2.1
  · rfl

theorem exponent?_of_ends {rest : List Char} (hr : EndsNumeral rest) :
    exponent? rest = some ([], rest) := by
  cases rest with
  | nil => rfl
  | cons c rest =>
    obtain ⟨-, -, he, hE⟩ := hr c rfl
    simp [exponent?, he, hE]

theorem unsignedNumeral?_toDigits (negative : Bool) {n : Nat} (h : negative → n ≠ 0)
    {rest : List Char} (hr : EndsNumeral rest) :
    unsignedNumeral? negative (Nat.toDigits 10 n ++ rest) =
      some (.int (if negative then -n else n), rest) := by
  simp only [unsignedNumeral?, whole?_toDigits n hr, fraction?_of_ends hr, exponent?_of_ends hr,
    Option.bind_eq_bind, Option.bind_some, Nat.ofDigitChars_ten_toDigits]
  cases negative <;> simp_all

theorem exists_toDigits (n : Nat) :
    ∃ d ds, Nat.toDigits 10 n = d :: ds ∧ d.isDigit = true := by
  obtain ⟨d, ds, hds⟩ := List.exists_cons_of_ne_nil (Nat.toDigits_ne_nil (n := n) (b := 10))
  have hd : d ∈ Nat.toDigits 10 n := by simp [hds]
  exact ⟨d, ds, hds, Nat.isDigit_of_mem_toDigits (by decide) (by decide) hd⟩

/-- A written integer begins with a digit or a sign, and is read back. -/
theorem numeral?_repr (i : Int) :
    ∃ c cs, i.repr.toList = c :: cs ∧ (c.isDigit = true ∨ c = '-') ∧
      ∀ {rest}, EndsNumeral rest → numeral? (c :: cs ++ rest) = some (.int i, rest) := by
  rcases Int.lt_or_le i 0 with hi | hi
  · have hvalue : -((-i).toNat : Int) = i := by omega
    refine ⟨'-', Nat.toDigits 10 (-i).toNat, ?_, .inr rfl, fun {rest} hr => ?_⟩
    · rw [Int.repr_eq_if, if_neg (by omega), String.toList_append, Nat.repr_eq_ofList_toDigits]
      simp
    · have hread := unsignedNumeral?_toDigits true (n := (-i).toNat) (by omega) hr
      rw [if_pos rfl, hvalue] at hread
      exact hread
  · obtain ⟨d, ds, hds, hd⟩ := exists_toDigits i.toNat
    refine ⟨d, ds, ?_, .inl hd, fun {rest} hr => ?_⟩
    · rw [Int.repr_eq_if, if_pos hi, Nat.repr_eq_ofList_toDigits, String.toList_ofList, hds]
    · have hread := unsignedNumeral?_toDigits false (n := i.toNat) (by simp) hr
      have hminus : d ≠ '-' := by
        rintro rfl
        revert hd
        decide
      rw [hds] at hread
      simpa [numeral?, hminus, Int.toNat_of_nonneg hi] using hread

/-! ## Tokens -/

/-- Any token but a numeral with a fraction or an exponent. -/
def Token.IsPlain : Token → Prop
  | .real _ => False
  | _ => True

/-- The second token cannot be taken for a part of the first. -/
def Token.Apart (t u : Token) : Prop := (∃ i, t = .int i) → EndsNumeral u.chars

theorem token?_of_numeral {c : Char} (hc : c.isDigit = true ∨ c = '-') (cs : List Char) :
    token? (c :: cs) = numeral? (c :: cs) := by
  unfold token?
  split <;> simp_all

theorem Token.exists_chars {t : Token} (ht : t.IsPlain) :
    ∃ c cs, t.chars = c :: cs ∧ isBlank c = false := by
  cases t with
  | real => exact ht.elim
  | int i =>
    obtain ⟨c, cs, hcs, hc, -⟩ := numeral?_repr i
    refine ⟨c, cs, hcs, ?_⟩
    simp only [isBlank, Bool.or_eq_false_iff, beq_eq_false_iff_ne]
    refine ⟨⟨⟨?_, ?_⟩, ?_⟩, ?_⟩ <;> rintro rfl <;> revert hc <;> decide
  | bool value => cases value <;> exact ⟨_, _, rfl, by decide⟩
  | str text => cases text <;> exact ⟨_, _, rfl, by decide⟩
  | _ => exact ⟨_, _, rfl, by decide⟩

/-- A written token is read back, with what follows it. -/
theorem token?_chars {t : Token} (ht : t.IsPlain) {rest : List Char}
    (hr : (∃ i, t = .int i) → EndsNumeral rest) : token? (t.chars ++ rest) = some (t, rest) := by
  cases t with
  | real => exact ht.elim
  | int i =>
    obtain ⟨c, cs, hcs, hc, hread⟩ := numeral?_repr i
    rw [Token.chars, hcs, List.cons_append, token?_of_numeral hc]
    exact hread (hr ⟨i, rfl⟩)
  | bool value => cases value <;> rfl
  | str text =>
    cases text with
    | none =>
      have hunit : unit? 'd' '8' '0' '0' = some 0xD800 := by decide
      have hread : pieces ('\\' :: 'u' :: 'd' :: '8' :: '0' :: '0' :: '"' :: rest) =
          some ([.unit 0xD800], rest) := by
        rw [pieces.eq_def]
        simp [hunit, pieces_quote]
      simp [Token.chars, token?, hread, characters?, isLowSurrogate, isHighSurrogate]
    | some text =>
      obtain ⟨ps, hread, hchars⟩ := exists_pieces text.toList rest
      simp [Token.chars, token?, hread, hchars, String.ofList_toList]
  | _ => rfl

theorem tokensWithin_chars {ts : List Token} (hplain : ∀ t ∈ ts, t.IsPlain)
    (hapart : ts.IsChain Token.Apart) {fuel : Nat} (hfuel : ts.length ≤ fuel) :
    tokensWithin fuel (ts.flatMap Token.chars) = some ts := by
  induction ts generalizing fuel with
  | nil => simp [tokensWithin]
  | cons t ts ih =>
    rw [List.forall_mem_cons] at hplain
    rw [List.isChain_cons] at hapart
    obtain ⟨c, cs, hcs, hblank⟩ := Token.exists_chars hplain.1
    have hends : (∃ i, t = .int i) → EndsNumeral (ts.flatMap Token.chars) := by
      intro hint
      cases ts with
      | nil => simp [EndsNumeral]
      | cons u us =>
        obtain ⟨_, _, hu, -⟩ := Token.exists_chars (hplain.2 u (by simp))
        exact (hapart.1 u rfl hint).append (by simp [hu]) _
    have hread := token?_chars hplain.1 hends
    rw [hcs, List.cons_append] at hread
    obtain ⟨fuel, rfl⟩ : ∃ m, fuel = m + 1 := ⟨fuel - 1, by simp at hfuel; omega⟩
    have hrest : tokensWithin fuel (ts.flatMap Token.chars) = some ts :=
      ih hplain.2 hapart.2 (by simpa using hfuel)
    rw [List.flatMap_cons, hcs, List.cons_append, tokensWithin,
      List.dropWhile_cons_of_neg (by simp [hblank])]
    simp [hread, hrest]

/-- Tokens that are apart are read back from their text. -/
theorem tokens?_chars {ts : List Token} (hplain : ∀ t ∈ ts, t.IsPlain)
    (hapart : ts.IsChain Token.Apart) : tokens? (ts.flatMap Token.chars) = some ts := by
  refine tokensWithin_chars hplain hapart ?_
  have hlength : ∀ us : List Token, (∀ t ∈ us, t.IsPlain) →
      us.length ≤ (us.flatMap Token.chars).length := by
    intro us hus
    induction us with
    | nil => simp
    | cons u us ih =>
      rw [List.forall_mem_cons] at hus
      obtain ⟨_, _, hu, -⟩ := Token.exists_chars hus.1
      have := ih hus.2
      simp only [List.flatMap_cons, hu, List.length_cons, List.length_append]
      omega
  exact hlength ts hplain

/-! ## Values -/

/-- A bracket, a comma or a colon. -/
def Token.isPunctuation : Token → Bool
  | .openBrace | .closeBrace | .openBracket | .closeBracket | .comma | .colon => true
  | _ => false

theorem Token.apart_of_isPunctuation {u : Token} (hu : u.isPunctuation) (t : Token) :
    t.Apart u := by
  intro _ c hc
  cases u with
  | openBrace | closeBrace | openBracket | closeBracket | comma | colon =>
    obtain rfl := Option.some.inj hc
    decide
  | _ => cases hu

theorem Token.isChain_append {ts us : List Token} {u : Token} (hu : u.isPunctuation)
    (hts : ts.IsChain Token.Apart) (hus : us.IsChain Token.Apart) :
    (ts ++ u :: us).IsChain Token.Apart := by
  have hcons : (u :: us).IsChain Token.Apart := by
    rw [List.isChain_cons]
    refine ⟨fun v _ => ?_, hus⟩
    rintro ⟨i, rfl⟩
    cases hu
  rw [List.isChain_append]
  refine ⟨hts, hcons, fun t _ v hv => ?_⟩
  obtain rfl : u = v := by simpa using hv
  exact apart_of_isPunctuation hu t

theorem itemTokens_cons_cons (v w : Json) (items : List Json) :
    itemTokens (v :: w :: items) = v.tokens ++ .comma :: itemTokens (w :: items) := by
  rw [itemTokens]
  simp

theorem memberTokens_cons_cons (name : Option String) (v : Json) (member : Option String × Json)
    (members : List (Option String × Json)) :
    memberTokens ((name, v) :: member :: members) =
      .str name :: .colon :: (v.tokens ++ .comma :: memberTokens (member :: members)) := by
  rw [memberTokens] <;> simp

mutual

/-- The tokens of a value are apart. -/
theorem isChain_tokens : (v : Json) → v.tokens.IsChain Token.Apart
  | .null | .bool _ | .int _ | .real _ | .str _ => by simp [tokens]
  | .arr items => by
    have hitems := Token.isChain_append (u := .closeBracket) rfl (isChain_itemTokens items) .nil
    simpa [tokens] using Token.isChain_append (u := .openBracket) rfl .nil hitems
  | .obj members => by
    have hmembers := Token.isChain_append (u := .closeBrace) rfl (isChain_memberTokens members) .nil
    simpa [tokens] using Token.isChain_append (u := .openBrace) rfl .nil hmembers

theorem isChain_itemTokens : (items : List Json) → (itemTokens items).IsChain Token.Apart
  | [] => by simp [itemTokens]
  | [v] => by simpa [itemTokens] using isChain_tokens v
  | v :: w :: items => by
    rw [itemTokens_cons_cons]
    exact Token.isChain_append rfl (isChain_tokens v) (isChain_itemTokens (w :: items))

theorem isChain_memberTokens :
    (members : List (Option String × Json)) → (memberTokens members).IsChain Token.Apart
  | [] => by simp [memberTokens]
  | [(name, v)] => by
    have hname : [Token.str name].IsChain Token.Apart := .singleton _
    simpa [memberTokens] using Token.isChain_append (u := .colon) rfl hname (isChain_tokens v)
  | (name, v) :: member :: members => by
    have hname : [Token.str name].IsChain Token.Apart := .singleton _
    have hfirst := Token.isChain_append (u := .colon) rfl hname (isChain_tokens v)
    rw [memberTokens_cons_cons]
    exact Token.isChain_append (u := .comma) rfl hfirst (isChain_memberTokens (member :: members))

end

/-- No value begins with a closing bracket, so any may come first in an array. -/
theorem foldlM_firstItem (v : Json) (stack : List Context) (rest : List Token) :
    (v.tokens ++ rest).foldlM Expect.next (.firstItem stack) =
      (v.tokens ++ rest).foldlM Expect.next (.value (.arr [] :: stack)) := by
  cases v <;> rfl

theorem exists_itemTokens (v : Json) (items : List Json) :
    ∃ rest, itemTokens (v :: items) = v.tokens ++ rest := by
  cases items with
  | nil => exact ⟨[], by simp [itemTokens]⟩
  | cons w items => exact ⟨_, itemTokens_cons_cons v w items⟩

mutual

/-- The tokens of a value lead past it. -/
theorem foldlM_tokens : (v : Json) → (stack : List Context) →
    v.tokens.foldlM Expect.next (.value stack) = some (.follow stack v)
  | .null, _ | .bool _, _ | .int _, _ | .real _, _ | .str _, _ => rfl
  | .arr [], _ | .obj [], _ => rfl
  | .arr (v :: items), stack => by
    have hitems := foldlM_itemTokens (v :: items) (List.cons_ne_nil _ _) [] stack
    obtain ⟨rest, hrest⟩ := exists_itemTokens v items
    rw [hrest, List.append_assoc, ← foldlM_firstItem] at hitems
    rw [tokens, hrest, List.cons_append, List.append_assoc]
    exact hitems
  | .obj (member :: members), stack => by
    have hmembers := foldlM_memberTokens (member :: members) (List.cons_ne_nil _ _) [] stack
    rw [tokens]
    cases members <;> exact hmembers

theorem foldlM_itemTokens : (items : List Json) → items ≠ [] → (before : List Json) →
    (stack : List Context) →
    (itemTokens items ++ [Token.closeBracket]).foldlM Expect.next
        (.value (.arr before :: stack)) =
      some (.follow stack (.arr (before.reverse ++ items)))
  | [], hne, _, _ => absurd rfl hne
  | [v], _, before, stack => by
    rw [itemTokens, List.foldlM_append, foldlM_tokens v]
    simp [Expect.next]
  | v :: w :: items, _, before, stack => by
    have hrest := foldlM_itemTokens (w :: items) (List.cons_ne_nil _ _) (v :: before) stack
    rw [itemTokens_cons_cons, List.append_assoc, List.foldlM_append, foldlM_tokens v]
    simpa [Expect.next] using hrest

theorem foldlM_memberTokens : (members : List (Option String × Json)) → members ≠ [] →
    (before : List (Option String × Json)) → (stack : List Context) →
    (memberTokens members ++ [Token.closeBrace]).foldlM Expect.next (.member stack before) =
      some (.follow stack (.obj (before.reverse ++ members)))
  | [], hne, _, _ => absurd rfl hne
  | [(name, v)], _, before, stack => by
    rw [memberTokens]
    simp [Expect.next, foldlM_tokens v]
  | (name, v) :: member :: members, _, before, stack => by
    have hrest :=
      foldlM_memberTokens (member :: members) (List.cons_ne_nil _ _) ((name, v) :: before) stack
    rw [memberTokens_cons_cons]
    simpa [Expect.next, foldlM_tokens v] using hrest

end

/-- Holds no numeral but integers. -/
def IsPlain (v : Json) : Prop := ∀ t ∈ v.tokens, t.IsPlain

theorem isPlain_arr {items : List Json} : (arr items).IsPlain ↔ ∀ v ∈ items, v.IsPlain := by
  have hitems : (∀ t ∈ itemTokens items, t.IsPlain) ↔ ∀ v ∈ items, v.IsPlain := by
    induction items with
    | nil => simp [itemTokens]
    | cons v items ih =>
      cases items with
      | nil => simp [itemTokens, IsPlain]
      | cons w items =>
        rw [itemTokens_cons_cons, List.forall_mem_append, List.forall_mem_cons, ih,
          List.forall_mem_cons]
        simp [IsPlain, Token.IsPlain]
  rw [← hitems, IsPlain, tokens]
  simp [or_imp, forall_and, Token.IsPlain]

theorem isPlain_obj {members : List (Option String × Json)} :
    (obj members).IsPlain ↔ ∀ member ∈ members, member.2.IsPlain := by
  have hmembers : (∀ t ∈ memberTokens members, t.IsPlain) ↔
      ∀ member ∈ members, member.2.IsPlain := by
    induction members with
    | nil => simp [memberTokens]
    | cons member members ih =>
      obtain ⟨name, v⟩ := member
      cases members with
      | nil => simp [memberTokens, IsPlain, Token.IsPlain]
      | cons other members =>
        rw [memberTokens_cons_cons, List.forall_mem_cons, List.forall_mem_cons,
          List.forall_mem_append, List.forall_mem_cons, ih, List.forall_mem_cons]
        simp [IsPlain, Token.IsPlain]
  rw [← hmembers, IsPlain, tokens]
  simp [or_imp, forall_and, Token.IsPlain]

theorem parse?_compress {v : Json} (h : v.IsPlain) : parse? v.compress = some v := by
  have htokens := tokens?_chars h (isChain_tokens v)
  simp [parse?, compress, String.toList_ofList, htokens, ofTokens?, foldlM_tokens, Expect.result?]

/-! ## Nesting -/

/-- The most brackets that are open at once in a text, if `opened` are open before it. The flag
tells whether the text begins inside of a string, where brackets do not count. -/
def deepest : Bool → Nat → List Char → Nat
  | _, opened, [] => opened
  | true, opened, '\\' :: _ :: cs => deepest true opened cs
  | true, opened, c :: cs => deepest (c ≠ '"') opened cs
  | false, opened, c :: cs =>
    if c = '"' then deepest true opened cs
    else if c = '{' ∨ c = '[' then deepest false (opened + 1) cs
    else if c = '}' ∨ c = ']' then max opened (deepest false (opened - 1) cs)
    else deepest false opened cs

/-- The most brackets that are open at once in a text. -/
def nesting (text : String) : Nat := deepest false 0 text.toList

mutual

/-- Containers of a value that lie inside each other. -/
def depth : Json → Nat
  | .arr items => itemsDepth items + 1
  | .obj members => membersDepth members + 1
  | _ => 0

def itemsDepth : List Json → Nat
  | [] => 0
  | v :: items => max v.depth (itemsDepth items)

def membersDepth : List (Option String × Json) → Nat
  | [] => 0
  | (_, v) :: members => max v.depth (membersDepth members)

end

@[simp]
theorem itemsDepth_cons (v : Json) (items : List Json) :
    itemsDepth (v :: items) = max v.depth (itemsDepth items) := by
  rw [itemsDepth]

@[simp]
theorem membersDepth_cons (name : Option String) (v : Json)
    (members : List (Option String × Json)) :
    membersDepth ((name, v) :: members) = max v.depth (membersDepth members) := by
  rw [membersDepth]

theorem le_deepest (inString : Bool) (opened : Nat) (cs : List Char) :
    opened ≤ deepest inString opened cs := by
  fun_induction deepest inString opened cs <;> omega

/-- A written character does not end the string it is in. -/
theorem deepest_escape (c : Char) (opened : Nat) (cs : List Char) :
    deepest true opened (escape c ++ cs) = deepest true opened cs := by
  obtain ⟨e, he, -, -⟩ | ⟨-, he⟩ | ⟨-, hquote, hslash, he⟩ := escape_cases c
  · simp [he, deepest]
  · have hhex : ∀ n, hexDigit n ≠ '"' ∧ hexDigit n ≠ '\\' := fun n =>
      ⟨Nat.digitChar_ne _ rfl, Nat.digitChar_ne _ rfl⟩
    simp [he, deepest, hhex]
  · simp [he, deepest, hquote, hslash]

theorem deepest_string (text : List Char) (opened : Nat) (cs : List Char) :
    deepest true opened (text.flatMap escape ++ '"' :: cs) = deepest false opened cs := by
  induction text with
  | nil => simp [deepest]
  | cons c text ih => rw [List.flatMap_cons, List.append_assoc, deepest_escape, ih]

theorem deepest_digits {ds : List Char} (hd : ∀ c ∈ ds, c.isDigit = true) (opened : Nat)
    (cs : List Char) : deepest false opened (ds ++ cs) = deepest false opened cs := by
  induction ds with
  | nil => rfl
  | cons d ds ih =>
    rw [List.forall_mem_cons] at hd
    have hne (c : Char) (hc : c.isDigit = false) : d ≠ c := by
      rintro rfl
      simp [hc] at hd
    simp [deepest, hne '"' rfl, hne '{' rfl, hne '[' rfl, hne '}' rfl, hne ']' rfl, ih hd.2]

theorem deepest_repr (i : Int) (opened : Nat) (cs : List Char) :
    deepest false opened (i.repr.toList ++ cs) = deepest false opened cs := by
  have hdigits (n : Nat) :
      deepest false opened (n.repr.toList ++ cs) = deepest false opened cs := by
    rw [Nat.repr_eq_ofList_toDigits, String.toList_ofList]
    exact deepest_digits (fun c hc => Nat.isDigit_of_mem_toDigits (by decide) (by decide) hc) _ _
  rw [Int.repr_eq_if]
  split
  · exact hdigits _
  · have hminus : deepest false opened ('-' :: ((-i).toNat.repr.toList ++ cs)) =
        deepest false opened ((-i).toNat.repr.toList ++ cs) := by
      simp [deepest]
    rw [String.toList_append, List.append_assoc, ← hdigits (-i).toNat]
    exact hminus

/-- A token that is no bracket does not change how many are open. -/
theorem deepest_chars {t : Token} (ht : t.IsPlain)
    (hb : t ≠ .openBrace ∧ t ≠ .closeBrace ∧ t ≠ .openBracket ∧ t ≠ .closeBracket) (opened : Nat)
    (cs : List Char) : deepest false opened (t.chars ++ cs) = deepest false opened cs := by
  cases t with
  | real => exact ht.elim
  | openBrace | closeBrace | openBracket | closeBracket => simp at hb
  | int i => exact deepest_repr i opened cs
  | bool value => cases value <;> simp [Token.chars, deepest]
  | str text =>
    cases text with
    | none => simp [Token.chars, deepest]
    | some text => simpa [Token.chars, deepest] using deepest_string text.toList opened cs
  | null | comma | colon => simp [Token.chars, deepest]

mutual

/-- The text of a value has as many brackets open at once as the value is deep. -/
theorem deepest_tokens : (v : Json) → (∀ t ∈ v.tokens, t.IsPlain) → (opened : Nat) →
    (cs : List Char) → deepest false opened (v.tokens.flatMap Token.chars ++ cs) =
      max (opened + v.depth) (deepest false opened cs)
  | .null, h, opened, cs | .bool _, h, opened, cs | .int _, h, opened, cs
  | .real _, h, opened, cs | .str _, h, opened, cs => by
    have hle := le_deepest false opened cs
    simp only [tokens, List.mem_singleton, forall_eq] at h
    simp [tokens, depth, deepest_chars h, hle]
  | .arr items, h, opened, cs => by
    have hitems := deepest_itemTokens items (fun t ht => h t (by simp [tokens, ht])) (opened + 1)
      (']' :: cs)
    have hle := le_deepest false opened cs
    simp only [tokens, depth, List.flatMap_cons, List.flatMap_append, List.flatMap_nil, Token.chars,
      List.append_assoc, List.cons_append, List.nil_append, List.append_nil]
    simp only [deepest, hitems, Char.reduceEq, ↓reduceIte, or_true, or_self]
    simp only [Nat.add_sub_cancel]
    omega
  | .obj members, h, opened, cs => by
    have hmembers := deepest_memberTokens members (fun t ht => h t (by simp [tokens, ht]))
      (opened + 1) ('}' :: cs)
    have hle := le_deepest false opened cs
    simp only [tokens, depth, List.flatMap_cons, List.flatMap_append, List.flatMap_nil, Token.chars,
      List.append_assoc, List.cons_append, List.nil_append, List.append_nil]
    simp only [deepest, hmembers, Char.reduceEq, ↓reduceIte, true_or, or_self]
    simp only [Nat.add_sub_cancel]
    omega

theorem deepest_itemTokens : (items : List Json) → (∀ t ∈ itemTokens items, t.IsPlain) →
    (opened : Nat) → (cs : List Char) →
    deepest false opened ((itemTokens items).flatMap Token.chars ++ cs) =
      max (opened + itemsDepth items) (deepest false opened cs)
  | [], _, opened, cs => by simp [itemTokens, itemsDepth, le_deepest]
  | [v], h, opened, cs => by
    simpa [itemTokens, itemsDepth] using deepest_tokens v (by simpa [itemTokens] using h) opened cs
  | v :: w :: items, h, opened, cs => by
    rw [itemTokens_cons_cons] at h ⊢
    have hv := deepest_tokens v (fun t ht => h t (by simp [ht])) opened
    have hrest := deepest_itemTokens (w :: items) (fun t ht => h t (by simp [ht])) opened cs
    have hcomma := deepest_chars (t := .comma) trivial (by simp) opened
    rw [List.flatMap_append, List.flatMap_cons, List.append_assoc, List.append_assoc, hv, hcomma,
      hrest, itemsDepth_cons v]
    omega

theorem deepest_memberTokens : (members : List (Option String × Json)) →
    (∀ t ∈ memberTokens members, t.IsPlain) → (opened : Nat) → (cs : List Char) →
    deepest false opened ((memberTokens members).flatMap Token.chars ++ cs) =
      max (opened + membersDepth members) (deepest false opened cs)
  | [], _, opened, cs => by simp [memberTokens, membersDepth, le_deepest]
  | [(name, v)], h, opened, cs => by
    rw [memberTokens] at h ⊢
    have hv := deepest_tokens v (fun t ht => h t (by simp [ht])) opened cs
    have hname := deepest_chars (t := .str name) trivial (by simp) opened
    have hcolon := deepest_chars (t := .colon) trivial (by simp) opened
    rw [List.flatMap_cons, List.flatMap_cons, List.append_assoc, List.append_assoc, hname, hcolon,
      hv]
    simp [membersDepth]
  | (name, v) :: member :: members, h, opened, cs => by
    rw [memberTokens_cons_cons] at h ⊢
    have hv := deepest_tokens v (fun t ht => h t (by simp [ht])) opened
    have hrest :=
      deepest_memberTokens (member :: members) (fun t ht => h t (by simp [ht])) opened cs
    have hname := deepest_chars (t := .str name) trivial (by simp) opened
    have hcolon := deepest_chars (t := .colon) trivial (by simp) opened
    have hcomma := deepest_chars (t := .comma) trivial (by simp) opened
    rw [List.flatMap_cons, List.flatMap_cons, List.flatMap_append, List.flatMap_cons,
      List.append_assoc, List.append_assoc, List.append_assoc, List.append_assoc, hname, hcolon, hv,
      hcomma, hrest, membersDepth_cons name v]
    omega

end

theorem nesting_compress {v : Json} (h : v.IsPlain) : nesting v.compress = v.depth := by
  have hdeepest := deepest_tokens v h 0 []
  simpa [nesting, compress, String.toList_ofList, deepest] using hdeepest

end WordLang.Json
