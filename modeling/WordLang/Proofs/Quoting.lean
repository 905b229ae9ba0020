import WordLang.Proofs.Listing

/-!
# What quoting a string writes

The operand of a `.string` directive is printable ASCII and stands between its quotes: in any
operand that can be read, a quote comes after an odd run of backslashes, since a reader in any other
state would take it for the end. Quoting goes byte by byte, so operands can be joined, and it is
undone by reading, so no two strings share an operand.
-/
namespace WordLang.Asm.Quoted

/-! ## Characters of an operand -/

def Printable (c : Char) : Prop := ' ' ≤ c ∧ c ≤ '~'

instance (c : Char) : Decidable (Printable c) := inferInstanceAs (Decidable (_ ∧ _))

theorem printable_octalDigit (n : Nat) : Printable (octalDigit n) := by
  have hsmall : ∀ d < 8, Printable (Nat.digitChar d) := by decide
  exact hsmall (n % 8) (Nat.mod_lt n (by decide))

theorem printable_ofNat {n : Nat} (h : 0x20 ≤ n ∧ n ≤ 0x7e) : Printable (Char.ofNat n) := by
  have hsmall : ∀ n < 0x7f, 0x20 ≤ n → Printable (Char.ofNat n) := by decide
  exact hsmall n (Nat.lt_succ_of_le h.2) h.1

theorem printable_of_mem_escape (b : UInt8) : ∀ c ∈ escape b, Printable c := by
  have hslash : Printable '\\' := by decide
  fun_cases escape b with
  | case6 _ _ _ _ _ hp =>
    have hb := printable_ofNat ⟨UInt8.le_iff_toNat_le.1 hp.1, UInt8.le_iff_toNat_le.1 hp.2⟩
    simpa using hb
  | case7 => simp [hslash, printable_octalDigit]
  | _ =>
    rw [List.forall_mem_cons, List.forall_mem_singleton]
    exact ⟨hslash, by decide⟩

theorem printable_of_mem_encode (value : String) :
    ∀ c ∈ (encode value).toList, Printable c := by
  intro c hc
  simp only [encode, String.toList_ofList, List.mem_flatMap] at hc
  obtain ⟨b, -, hc⟩ := hc
  exact printable_of_mem_escape b c hc

/-! ## Quotes and backslashes -/

/-- What is open of an escape after some more characters, if they can be read. -/
def Escape.after (state : Escape) (cs : List Char) : Option Escape :=
  cs.foldlM (fun state c => (state.read c).map Prod.snd) state

/-- Backslashes at the end of a text. -/
def trailingBackslashes (cs : List Char) : Nat := (cs.reverse.takeWhile (· == '\\')).length

theorem trailingBackslashes_concat (cs : List Char) (c : Char) :
    trailingBackslashes (cs ++ [c]) = if c = '\\' then trailingBackslashes cs + 1 else 0 := by
  by_cases hc : c = '\\' <;> simp [trailingBackslashes, hc]

theorem readPlain_eq_backslash_iff {c : Char} {bytes : List UInt8} {next : Escape}
    (h : readPlain c = some (bytes, next)) : next = .backslash ↔ c = '\\' := by
  grind [readPlain]

theorem readEscaped_ne_backslash {c : Char} {bytes : List UInt8} {next : Escape}
    (h : readEscaped c = some (bytes, next)) : next ≠ .backslash := by
  unfold readEscaped at h
  split at h
  case h_6 =>
    obtain ⟨digit, -, heq⟩ := Option.map_eq_some_iff.1 h
    grind
  all_goals grind

theorem readOctal_eq_backslash_iff {digits value : Nat} {c : Char} {bytes : List UInt8}
    {next : Escape} (h : readOctal digits value c = some (bytes, next)) :
    next = .backslash ↔ c = '\\' := by
  have hslash : octalValue? '\\' = none := rfl
  unfold readOctal at h
  split at h
  · grind
  · obtain ⟨⟨first, after⟩, hplain, heq⟩ := Option.map_eq_some_iff.1 h
    obtain rfl : after = next := (Prod.mk.inj heq).2
    exact readPlain_eq_backslash_iff hplain

/-- A character opens an escape if it is a backslash and no escape is open. -/
theorem Escape.read_eq_backslash_iff {state next : Escape} {c : Char} {bytes : List UInt8}
    (h : state.read c = some (bytes, next)) :
    next = .backslash ↔ c = '\\' ∧ state ≠ .backslash := by
  cases state with
  | none => simpa using readPlain_eq_backslash_iff h
  | backslash => simpa using readEscaped_ne_backslash h
  | octal => simpa using readOctal_eq_backslash_iff h

/-- Characters that can be read leave a backslash open if they end with an odd run of them. -/
theorem after_eq_backslash_iff {cs : List Char} {state : Escape}
    (h : Escape.none.after cs = some state) :
    state = .backslash ↔ trailingBackslashes cs % 2 = 1 := by
  induction cs using List.reverseRecOn generalizing state with
  | nil =>
    obtain rfl : Escape.none = state := by simpa [Escape.after] using h
    simp [trailingBackslashes]
  | append_singleton cs c ih =>
    rw [Escape.after, List.foldlM_append, Option.bind_eq_bind, Option.bind_eq_some_iff] at h
    obtain ⟨before, hbefore, hc⟩ := h
    obtain ⟨⟨bytes, next⟩, hread, rfl⟩ : ∃ step, before.read c = some step ∧ step.2 = state := by
      simpa using hc
    have hparity := ih hbefore
    rw [Escape.read_eq_backslash_iff hread, trailingBackslashes_concat]
    grind

/-- A quote can be read only after a backslash. -/
theorem Escape.eq_backslash_of_read_quote {state : Escape} {step : List UInt8 × Escape}
    (h : state.read '"' = some step) : state = .backslash := by
  cases state with
  | none => cases h
  | backslash => rfl
  | octal digits value =>
    have hquote : octalValue? '"' = Option.none := rfl
    simp [Escape.read, readOctal, hquote, readPlain] at h

/-- An operand that can be read is read up to each of its characters. -/
theorem exists_after_of_decodeFrom {state : Escape} {cs ds : List Char} {bytes : List UInt8}
    (h : decodeFrom state (cs ++ ds) = some bytes) :
    ∃ next rest, state.after cs = some next ∧ decodeFrom next ds = some rest := by
  induction cs generalizing state bytes with
  | nil => exact ⟨state, bytes, rfl, h⟩
  | cons c cs ih =>
    simp only [List.cons_append, decodeFrom, Option.bind_eq_bind, Option.bind_eq_some_iff] at h
    obtain ⟨⟨first, next⟩, hread, tail, htail, -⟩ := h
    obtain ⟨final, rest, hafter, hrest⟩ := ih htail
    exact ⟨final, rest, by simpa [Escape.after, hread] using hafter, hrest⟩

/-- In an operand that can be read, an odd run of backslashes stands before every quote. -/
theorem odd_trailingBackslashes_of_decode {operand : String} {bytes : List UInt8}
    (h : decode operand = some bytes) {before after : List Char}
    (hq : operand.toList = before ++ '"' :: after) : trailingBackslashes before % 2 = 1 := by
  rw [decode, hq] at h
  obtain ⟨state, rest, hstate, hrest⟩ := exists_after_of_decodeFrom h
  obtain ⟨step, hread, -⟩ := Option.bind_eq_some_iff.1 hrest
  exact (after_eq_backslash_iff hstate).1 (Escape.eq_backslash_of_read_quote hread)

/-! ## Operands as an encoding of strings -/

theorem encode_append (a b : String) : encode (a ++ b) = encode a ++ encode b := by
  simp [encode, String.ofList_append]

theorem encode_injective : Function.Injective encode := by
  intro a b h
  have hbytes : some (utf8 a) = some (utf8 b) := by rw [← decode_encode, ← decode_encode, h]
  exact utf8_injective (Option.some.inj hbytes)

/-- Quoting writes printable ASCII in which every quote stands after an odd run of backslashes, and
reading gives the bytes of the string back. So no two strings are quoted alike, and the operands of
two strings can be joined, whatever the second begins with. -/
theorem encode_reversible :
    (∀ value : String,
      (∀ c ∈ (encode value).toList, Printable c) ∧
      (∀ before after : List Char, (encode value).toList = before ++ '"' :: after →
        trailingBackslashes before % 2 = 1) ∧
      decode (encode value) = some (utf8 value)) ∧
    Function.Injective encode ∧
    ∀ a b : String, encode (a ++ b) = encode a ++ encode b ∧
      decode (encode a ++ encode b) = some (utf8 a ++ utf8 b) := by
  refine ⟨fun value => ⟨printable_of_mem_encode value, fun before after hq => ?_,
    decode_encode value⟩, encode_injective, fun a b => ⟨encode_append a b, ?_⟩⟩
  · exact odd_trailingBackslashes_of_decode (decode_encode value) hq
  · rw [← encode_append, decode_encode, utf8_append]

example : encode "\x017\\\"" = "\\0017\\\\\\\"" := by decide

end WordLang.Asm.Quoted
