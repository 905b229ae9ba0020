import WordLang.Proofs.Labels
import WordLang.Proofs.Machine

/-!
# Programs in memory

An assembled program is loaded with its routines one after another. The name of a routine stands for
the position of its first instruction, and a label for the position where it stands. No symbol is
defined twice, as function names do not look like labels; so each routine is found under its name,
with its own labels.
-/
namespace WordLang

open Asm Machine

/-- Does not begin with a dot, as the labels of code do. -/
def IsSymbolName (name : String) : Prop := name.toList.head? ≠ some '.'

instance (name : String) : Decidable (IsSymbolName name) :=
  inferInstanceAs (Decidable (_ ≠ _))

namespace Asm

/-- The labels of code that stands at position `k`, with their positions. -/
def Code.symbols : Nat → Code → Table Nat
  | _, [] => []
  | k, .label n :: code => (labelName n, k) :: symbols k code
  | k, .instr _ :: code => symbols (k + 1) code

/-- The symbols of routines that stand one after another from position `k` on. -/
def symbolsFrom : Nat → List Routine → Table Nat
  | _, [] => []
  | k, r :: rs => (r.name, k) :: (r.code.symbols k ++ symbolsFrom (k + r.code.size) rs)

end Asm

namespace Assembly

def instrs (a : Assembly) : List Instr := a.routines.flatMap (·.code.instrs)

def symbols (a : Assembly) : Table Nat := symbolsFrom 0 a.routines

end Assembly

/-- The image is that of the assembled program. -/
structure Machine.Image.Loads (img : Image) (a : Assembly) : Prop where
  instrs : img.instrs = a.instrs
  symbols : img.symbols = a.symbols

namespace Asm

theorem labelName_eq (n : Nat) : labelName n = ".L" ++ n.repr := rfl

/-- Numbers behind the same text can be told apart. -/
theorem append_repr_injective (text : String) :
    Function.Injective fun n : Nat => text ++ n.repr := by
  intro m n h
  have hdigits : Nat.toDigits 10 m = Nat.toDigits 10 n := by
    simpa using congrArg String.toList h
  rw [← @Nat.ofDigitChars_ten_toDigits m, hdigits, Nat.ofDigitChars_ten_toDigits]

theorem labelName_injective : Function.Injective labelName := append_repr_injective ".L"

theorem not_isSymbolName_labelName (n : Nat) : ¬ IsSymbolName (labelName n) := by
  simp [IsSymbolName, labelName_eq]

theorem Code.map_fst_symbols (k : Nat) (code : Code) :
    (code.symbols k).map Prod.fst = code.labels.map labelName := by
  induction code generalizing k with
  | nil => rfl
  | cons line code ih => cases line <;> simp [symbols, ih]

/-- The symbols are the names of the routines and the labels. -/
theorem map_fst_symbolsFrom_perm (k : Nat) (rs : List Routine) :
    ((symbolsFrom k rs).map Prod.fst).Perm
      (rs.map Routine.name ++ (Code.labels (rs.flatMap Routine.code)).map labelName) := by
  induction rs generalizing k with
  | nil => exact .nil
  | cons r rs ih =>
    simp only [symbolsFrom, List.map_cons, List.map_append, Code.map_fst_symbols,
      List.flatMap_cons, Code.labels_append, List.cons_append]
    exact .cons _ (((ih _).append_left _).trans (List.perm_append_comm_assoc _ _ _))

theorem nodup_symbolsFrom {rs : List Routine} (hn : (rs.map Routine.name).Nodup)
    (hs : ∀ r ∈ rs, IsSymbolName r.name) (hl : (Code.labels (rs.flatMap Routine.code)).Nodup)
    (k : Nat) : ((symbolsFrom k rs).map Prod.fst).Nodup := by
  rw [(map_fst_symbolsFrom_perm k rs).nodup_iff, List.nodup_append]
  refine ⟨hn, hl.map labelName_injective, ?_⟩
  rintro _ hname _ hlabel rfl
  obtain ⟨r, hr, rfl⟩ := List.mem_map.1 hname
  obtain ⟨n, -, hlabel⟩ := List.mem_map.1 hlabel
  exact not_isSymbolName_labelName n (hlabel ▸ hs r hr)

end Asm

namespace Machine.Image

variable {img : Image}

/-- Code is held where its instructions stand and its labels are known. -/
theorem holds_of_symbols {code : Code} {k : Nat} (hi : code.instrs <+: img.instrs.drop k)
    (hs : ∀ entry ∈ code.symbols k, img.symbols.find? entry.1 = some entry.2) :
    img.Holds k code (k + code.size) := by
  induction code generalizing k with
  | nil => rfl
  | cons line code ih =>
    cases line with
    | label n =>
      exact ⟨hs _ List.mem_cons_self, ih hi fun entry he => hs _ (List.mem_cons_of_mem _ he)⟩
    | instr i =>
      obtain ⟨rest, hrest⟩ := hi
      have hk : img.instrs[k]? = some i := by
        rw [← List.head?_drop, ← hrest]
        rfl
      have htail : Code.instrs code <+: img.instrs.drop (k + 1) := by
        rw [← List.tail_drop, ← hrest]
        exact List.prefix_append _ _
      have h := ih htail hs
      rw [Code.size_instr, Nat.add_comm (Code.size code), ← Nat.add_assoc]
      exact ⟨hk, h⟩

theorem holds_routine_of_symbols {rs : List Routine} {k : Nat}
    (hi : rs.flatMap (·.code.instrs) <+: img.instrs.drop k)
    (hs : ∀ entry ∈ symbolsFrom k rs, img.symbols.find? entry.1 = some entry.2) {r : Routine}
    (hr : r ∈ rs) :
    ∃ j j', img.symbols.find? r.name = some j ∧ img.Holds j r.code j' := by
  induction rs generalizing k with
  | nil => cases hr
  | cons r₁ rs ih =>
    simp only [symbolsFrom, List.mem_cons, List.mem_append, forall_eq_or_imp] at hs
    rcases List.mem_cons.1 hr with rfl | hr
    · refine ⟨k, _, hs.1, holds_of_symbols ?_ fun entry he => hs.2 _ (.inl he)⟩
      exact (List.prefix_append _ _).trans hi
    · refine ih ?_ (fun entry he => hs.2 _ (.inr he)) hr
      obtain ⟨rest, hrest⟩ := hi
      rw [← List.drop_drop, ← hrest, List.flatMap_cons, List.append_assoc, Code.size,
        List.drop_left]
      exact List.prefix_append _ _

end Machine.Image

/-! ## Loading -/

/-- An instruction is written on a line of its own. -/
theorem Asm.Code.size_le (code : Code) : code.size ≤ code.text.utf8ByteSize := by
  induction code with
  | nil => exact Nat.zero_le _
  | cons line code ih =>
    have hline : 0 < "\n".utf8ByteSize := by decide
    simp only [Code.text, List.map_cons, String.join_cons, String.utf8ByteSize_append] at ih ⊢
    cases line with
    | label n =>
      rw [size_label]
      omega
    | instr i =>
      simp only [size_instr, Line.text, String.utf8ByteSize_append]
      omega

theorem Assembly.length_instrs_le (a : Assembly) : a.instrs.length ≤ a.text.utf8ByteSize := by
  have hroutines (rs : List Routine) : (rs.flatMap (·.code.instrs)).length ≤
      (String.join (rs.map Routine.text)).utf8ByteSize := by
    induction rs with
    | nil => exact Nat.zero_le _
    | cons r rs ih =>
      have hr : r.code.instrs.length ≤ r.code.text.utf8ByteSize := r.code.size_le
      simp only [List.flatMap_cons, List.length_append, List.map_cons, String.join_cons,
        Routine.text, String.utf8ByteSize_append]
      omega
  have := hroutines a.routines
  simp only [instrs, text, String.utf8ByteSize_append]
  omega

/-- The image with the instructions at the addresses from zero on. -/
def Assembly.image (a : Assembly) (h : a.instrs.length ≤ 2 ^ 64) : Image where
  instrs := a.instrs
  symbols := a.symbols
  literal := BitVec.ofNat 64
  address := BitVec.ofNat 64
  index? a := some a.toNat
  index?_address k hk := by
    simp only [BitVec.toNat_ofNat, Option.some.injEq]
    omega

theorem Assembly.loads_image (a : Assembly) (h : a.instrs.length ≤ 2 ^ 64) :
    (a.image h).Loads a := ⟨rfl, rfl⟩

/-- A support library that answers zero and does nothing else, with a stack of 64 KiB. -/
def Machine.Runtime.silent : Runtime where
  answer _ _ _ := some 0
  effect _ s := s
  stackTop := 65536
  keeps _ s _ := .refl _ _ s

/-- A state at the start of a program, with the byte `b` all over the unused stack. -/
def Machine.State.filled (b : BitVec 8) : State where
  regs _ := 65528
  flags := none
  memory a := if a.toNat < 65528 then b else 0
  trace := []

theorem Machine.State.filled_enters {rt : Runtime} (h : 65536 ≤ rt.stackTop) (b : BitVec 8) :
    (filled b).Enters rt [] [] 0 :=
  ⟨rfl, rfl, by simp [filled], h, Nat.zero_le _⟩

/-- An assembled program whose text fits into the memory can be loaded. -/
theorem Assembly.exists_image (a : Assembly) (h : a.text.utf8ByteSize ≤ 2 ^ 64) :
    ∃ img : Image, img.Loads a :=
  ⟨_, a.loads_image (Nat.le_trans a.length_instrs_le h)⟩

/-- Where no symbol is defined twice, every routine is found under its name, with all its labels. -/
theorem Machine.Image.Loads.holds_routine {img : Image} {a : Assembly} (h : img.Loads a)
    (hd : (a.symbols.map Prod.fst).Nodup) {r : Routine} (hr : r ∈ a.routines) :
    ∃ k k', img.symbols.find? r.name = some k ∧ img.Holds k r.code k' := by
  refine Image.holds_routine_of_symbols (k := 0) ?_ ?_ hr
  · rw [h.instrs]
    exact List.prefix_rfl
  · intro entry he
    rw [h.symbols]
    exact Table.find?_of_mem hd he

namespace Program.Assembles

variable {limits : Limits} {p : Program} {a : Assembly} {img : Image}

theorem map_name_routines (h : p.Assembles limits a) :
    a.routines.map Routine.name = p.functions.map (·.name) := by
  have hnames (fs : List FunctionDecl) (rs : List Routine)
      (hf : List.Forall₂ (fun f r => ∃ s s', f.Lowers limits p.declarations s r s') fs rs) :
      rs.map Routine.name = fs.map (·.name) := by
    induction hf with
    | nil => rfl
    | cons hl _ ih =>
      obtain ⟨_, _, hl⟩ := hl
      simp [hl.name_eq, ih]
  exact hnames _ _ h.forall₂

/-- A program whose text fits into the memory can be loaded. -/
theorem exists_image (h : p.Assembles limits a) (hlen : (p.written limits).length ≤ 2 ^ 64) :
    ∃ img : Image, img.Loads a := by
  refine a.exists_image ?_
  simpa [h.written_eq, utf8] using hlen

/-- No symbol is defined twice, if no function has the name of a label. -/
theorem nodup_symbols (h : p.Assembles limits a) (hn : ∀ f ∈ p.functions, IsSymbolName f.name) :
    (a.symbols.map Prod.fst).Nodup := by
  obtain ⟨_, hl, -⟩ := h.exists_lowers
  exact nodup_symbolsFrom (h.map_name_routines ▸ h.functions_nodup)
    (fun _ hr => h.name_of_routine hn hr) hl.labelsIn.nodup 0

/-- Other names are not symbols of the program. -/
theorem find?_symbols_eq_none (h : p.Assembles limits a) (himg : img.Loads a) {name : String}
    (hs : IsSymbolName name) (hn : ∀ f ∈ p.functions, f.name ≠ name) :
    img.symbols.find? name = none := by
  rw [himg.symbols, Table.find?_eq_none_iff, Assembly.symbols,
    (map_fst_symbolsFrom_perm _ _).mem_iff, List.mem_append, h.map_name_routines]
  rintro (hm | hm)
  · obtain ⟨f, hf, he⟩ := List.mem_map.1 hm
    exact hn f hf he
  · obtain ⟨n, -, he⟩ := List.mem_map.1 hm
    exact not_isSymbolName_labelName n (he ▸ hs)

end Program.Assembles

/-- The functions of the support library have names that a program can use. -/
theorem Builtin.isSymbolName_of_find? {name : String} {b : Builtin} (h : find? name = some b) :
    IsSymbolName name := by
  have hall : ∀ b ∈ all, IsSymbolName b.name := by decide
  have he : b.name = name := by simpa using List.find?_some h
  exact he ▸ hall b (List.mem_of_find?_eq_some h)

end WordLang
