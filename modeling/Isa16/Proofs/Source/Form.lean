import Isa16.Proofs.Text
import Isa16.Proofs.Traversal
import Isa16.Source.Statement
/-!
# What a line says

The written forms of macro calls and of lines, as relations between a text and
its meaning: a macro is named in letters of either case, blanks around
arguments do not count, a register is a letter and a digit. The readers accept
exactly these forms (`MacroCall.read_eq_ok_iff`, `Statement.read_eq_ok_iff`), so
a theorem about lines that say something is about lines as they are written.
-/

namespace Isa16.Source

open Text (IsDecimal)

/-! ## Registers -/

/-- The text is `r` or `R` and the digit of register `r`. -/
def NamesReg (r : Reg) (text : List Char) : Prop :=
  ∃ c, (c = 'r' ∨ c = 'R') ∧ text = [c, Nat.digitChar r]

theorem digit?_ten_eq_some_iff {c : Char} (r : Reg) : Text.digit? 10 c = some r.val ↔ c = Nat.digitChar r := by
  constructor
  · intro h
    rw [Text.digit?_ten] at h
    split at h
    · rename_i hd
      have hc : 48 ≤ c.toNat := UInt32.le_iff_toNat_le.1 (Char.isDigit_iff_toNat.1 hd).1
      simp only [Option.some.injEq] at h
      apply Char.toNat_inj.1
      rw [Nat.toNat_digitChar_of_lt_ten (by omega)]
      omega
    · cases h
  · rintro rfl
    revert r
    decide

theorem register?_eq_some_iff {r : Reg} {text : List Char} : register? text = some r ↔ NamesReg r text := by
  unfold NamesReg
  constructor
  · intro h
    match text, h with
    | [c, d], h =>
      simp only [register?] at h
      split at h
      · rename_i hc
        obtain ⟨n, hn, h⟩ := Option.bind_eq_some_iff.1 h
        split at h
        · rename_i h8
          cases h
          exact ⟨c, hc, by rw [(digit?_ten_eq_some_iff ⟨n, h8⟩).1 hn]⟩
        · cases h
      · cases h
  · rintro ⟨c, hc, rfl⟩
    simp [register?, hc, (digit?_ten_eq_some_iff r).2 rfl]

/-! ## Names -/

theorem isNameChar_of_isName {name : List Char} (h : isName name) : ∀ c ∈ name, isNameChar c := by
  cases name with
  | nil => cases h
  | cons c rest =>
    simp only [isName, Bool.and_eq_true, List.all_eq_true] at h
    refine List.forall_mem_cons.2 ⟨?_, h.2⟩
    have hstart := h.1
    simp only [isNameStart, Bool.or_eq_true] at hstart
    simp only [isNameChar, Char.isAlphanum, Bool.or_eq_true]
    exact hstart.imp_left .inl

/-! ## Macro calls -/

namespace MacroCall

/-- The text names a macro, in letters of either case, and gives it arguments. -/
def Names (body : List Char) (name : String) (arguments : List Char) : Prop :=
  ∃ written rest, body = written ++ rest ∧ written.map Char.toUpper = name.toList ∧
    (∀ c ∈ rest.head?, Text.isBlank c) ∧ Text.trim rest = arguments

/-- What the text behind `%` says. -/
inductive Says (body : List Char) : MacroCall → Prop
  | load {r : Reg} {n : Nat} {reg value : List Char} (named : Names body "SLDI" (reg ++ ',' :: value))
      (first : ',' ∉ reg) (hr : NamesReg r (Text.trim reg))
      (hv : IsDecimal n (Text.trim value) ∨ ∃ digits, Text.trim value = '+' :: digits ∧ IsDecimal n digits)
      (hn : n < 65536) : Says body (.load r (UInt16.ofNat n))
  | loadSymbol {r : Reg} {name : String} {reg value : List Char}
      (named : Names body "SLDI" (reg ++ ',' :: value)) (first : ',' ∉ reg) (hr : NamesReg r (Text.trim reg))
      (hv : Text.trim value = '.' :: name.toList) (hn : isName name.toList) : Says body (.loadSymbol r name)
  | initStack (named : Names body "ISTK" []) : Says body .initStack
  | call {r : Reg} {arguments : List Char} (named : Names body "CALL" arguments) (hr : NamesReg r arguments) :
      Says body (.call r)
  | ret (named : Names body "RET" []) : Says body .ret

theorem names_iff {body arguments : List Char} {name : String} (hn : name.toList.any Text.isBlank = false) :
    Names body name arguments ↔ String.ofList ((Text.cutWord body).1.map Char.toUpper) = name ∧
      Text.trim (Text.cutWord body).2 = arguments := by
  constructor
  · rintro ⟨written, rest, rfl, hw, hr, rfl⟩
    -- The name of a macro has no blank, so the first word of the text is all of what was written.
    have hblank : ∀ c ∈ written, Text.isBlank c = false := by
      intro c hc
      by_contra hb
      have hb : Text.isBlank c = true := by simpa using hb
      have hmem : c ∈ name.toList := hw ▸ List.mem_map.2 ⟨c, hc, Text.toUpper_of_blank hb⟩
      exact List.any_eq_false.1 hn c hmem hb
    cases rest with
    | nil =>
      have hcut : Text.cutWord (written ++ []) = (written, []) :=
        Text.cutWord_eq_iff.2 ⟨hblank, .inl ⟨by simp, rfl⟩⟩
      rw [hcut]
      exact ⟨by rw [hw, String.ofList_toList], rfl⟩
    | cons b rest =>
      have hb : Text.isBlank b := hr b (by simp)
      have hcut : Text.cutWord (written ++ b :: rest) = (written, rest) :=
        Text.cutWord_eq_iff.2 ⟨hblank, .inr ⟨b, hb, rfl⟩⟩
      rw [hcut]
      exact ⟨by rw [hw, String.ofList_toList], (Text.trim_cons_of_blank hb rest).symm⟩
  · rintro ⟨hname, rfl⟩
    have hw : (Text.cutWord body).1.map Char.toUpper = name.toList := by simp [← hname]
    obtain ⟨-, ⟨hbody, hrest⟩ | ⟨b, hb, hbody⟩⟩ := Text.cutWord_eq_iff.1 (Prod.eta (Text.cutWord body)).symm
    · exact ⟨_, [], by rw [List.append_nil]; exact hbody, hw, by simp, by rw [hrest]⟩
    · exact ⟨_, _, hbody, hw, by simpa using hb, Text.trim_cons_of_blank hb _⟩

theorem readLoad_eq_ok_iff {malformed : Assembly.Cause} {r : Reg} {text : List Char} {c : MacroCall} :
    readLoad malformed r text = .ok c ↔
      (∃ n, (IsDecimal n text ∨ ∃ digits, text = '+' :: digits ∧ IsDecimal n digits) ∧ n < 65536 ∧
        c = .load r (UInt16.ofNat n)) ∨
      ∃ name : String, text = '.' :: name.toList ∧ isName name.toList ∧ c = .loadSymbol r name := by
  by_cases hdot : ∃ name, text = '.' :: name
  · obtain ⟨name, rfl⟩ := hdot
    have hnum : ∀ n, ¬ IsDecimal n ('.' :: name) := fun n h => absurd (h.2.1 '.' (by simp)) (by decide)
    simp only [readLoad, hnum, List.cons.injEq]
    constructor
    · intro h
      split at h
      · rename_i hn
        cases h
        exact .inr ⟨String.ofList name, by simp, by simpa using hn, rfl⟩
      · cases h
    · rintro (⟨n, h | ⟨_, ⟨h, -⟩, -⟩, -⟩ | ⟨s, ⟨-, rfl⟩, hn, rfl⟩)
      · exact h.elim
      · cases h
      · simp [hn]
  · have hread : readLoad malformed r text = (Text.natural? 10 0x100000000 text).elim (.error malformed) fun n =>
        if n < 65536 then .ok (.load r (UInt16.ofNat n)) else .error (.valueOutOfRange (String.ofList text)) := by
      unfold readLoad
      split
      · exact absurd ⟨_, rfl⟩ hdot
      · cases Text.natural? 10 0x100000000 _ <;> rfl
    rw [hread]
    constructor
    · intro h
      cases hn : Text.natural? 10 0x100000000 text with
      | none =>
        rw [hn] at h
        cases h
      | some n =>
        rw [hn, Option.elim_some] at h
        split at h
        · rename_i hlt
          cases h
          exact .inl ⟨n, ((Text.natural?_eq_some_iff (by decide)).1 hn).1, hlt, rfl⟩
        · cases h
    · rintro (⟨n, h, hlt, rfl⟩ | ⟨s, rfl, -, -⟩)
      · rw [(Text.natural?_eq_some_iff (by decide)).2 ⟨h, by omega⟩]
        exact if_pos hlt
      · exact absurd ⟨_, rfl⟩ hdot

theorem read_load_eq_ok_iff {malformed : Assembly.Cause} {arguments : List Char} {c : MacroCall} :
    (match Text.cutAt? (· = ',') arguments with
      | none => .error malformed
      | some (reg, value) =>
        match register? (Text.trim reg) with
        | none => .error malformed
        | some reg => readLoad malformed reg (Text.trim value)) = Except.ok c ↔
      ∃ reg value r, arguments = reg ++ ',' :: value ∧ ',' ∉ reg ∧ NamesReg r (Text.trim reg) ∧
        readLoad malformed r (Text.trim value) = .ok c := by
  constructor
  · intro h
    split at h
    · cases h
    · rename_i reg value hcut
      obtain ⟨_, hcomma, rfl, hfirst⟩ := Text.cutAt?_eq_some_iff.1 hcut
      obtain rfl : _ = ',' := by simpa using hcomma
      split at h
      · cases h
      · rename_i r hr
        exact ⟨reg, value, r, rfl, fun hm => by simpa using hfirst _ hm, register?_eq_some_iff.1 hr, h⟩
  · rintro ⟨reg, value, r, rfl, hfirst, hr, h⟩
    have hcut : Text.cutAt? (· = ',') (reg ++ ',' :: value) = some (reg, value) :=
      Text.cutAt?_eq_some_iff.2 ⟨',', by simp, rfl, fun d hd => by
        simp only [decide_eq_false_iff_not]; rintro rfl; exact hfirst hd⟩
    simp only [hcut, register?_eq_some_iff.2 hr, h]

/-- The reader of macro calls accepts exactly the written forms. -/
theorem read_eq_ok_iff {body : List Char} {c : MacroCall} : read body = .ok c ↔ Says body c := by
  have named {name : String} (hn : name.toList.any Text.isBlank = false) (arguments : List Char) :=
    @names_iff body arguments name hn
  constructor
  · intro h
    unfold read at h
    dsimp only at h
    split at h
    · rename_i hname
      obtain ⟨reg, value, r, harg, hfirst, hr, h⟩ := read_load_eq_ok_iff.1 h
      have hnamed := (named rfl _).2 ⟨hname, harg⟩
      obtain ⟨n, hv, hn, rfl⟩ | ⟨s, hv, hs, rfl⟩ := readLoad_eq_ok_iff.1 h
      · exact .load hnamed hfirst hr hv hn
      · exact .loadSymbol hnamed hfirst hr hv hs
    · rename_i hname
      split at h
      · rename_i harg
        cases h
        exact .initStack ((named rfl _).2 ⟨hname, by simpa using harg⟩)
      · cases h
    · rename_i hname
      split at h
      · cases h
      · rename_i r hr
        cases h
        exact .call ((named rfl _).2 ⟨hname, rfl⟩) (register?_eq_some_iff.1 hr)
    · rename_i hname
      split at h
      · rename_i harg
        cases h
        exact .ret ((named rfl _).2 ⟨hname, by simpa using harg⟩)
      · cases h
    · cases h
  · intro h
    unfold read
    dsimp only
    cases h with
    | load hnamed hfirst hr hv hn =>
      obtain ⟨hname, harg⟩ := (named rfl _).1 hnamed
      rw [hname]
      exact read_load_eq_ok_iff.2 ⟨_, _, _, harg, hfirst, hr, readLoad_eq_ok_iff.2 (.inl ⟨_, hv, hn, rfl⟩)⟩
    | loadSymbol hnamed hfirst hr hv hn =>
      obtain ⟨hname, harg⟩ := (named rfl _).1 hnamed
      rw [hname]
      exact read_load_eq_ok_iff.2 ⟨_, _, _, harg, hfirst, hr, readLoad_eq_ok_iff.2 (.inr ⟨_, hv, hn, rfl⟩)⟩
    | initStack hnamed =>
      obtain ⟨hname, harg⟩ := (named rfl _).1 hnamed
      rw [hname, harg]
      rfl
    | call hnamed hr =>
      obtain ⟨hname, harg⟩ := (named rfl _).1 hnamed
      rw [hname, harg]
      simp only [register?_eq_some_iff.2 hr]
    | ret hnamed =>
      obtain ⟨hname, harg⟩ := (named rfl _).1 hnamed
      rw [hname, harg]
      rfl

end MacroCall

/-! ## Lines -/

namespace Statement

/-- What a line in normal form says. -/
inductive Says (line : List Char) : Statement → Prop
  | note (h : Text.code line = []) : Says line (.note (String.ofList (Text.trim line)))
  | label {code : List Char} (h : Text.code line = '.' :: code) : Says line (.label (String.ofList ('.' :: code)))
  | call {body : List Char} {c : MacroCall} (h : Text.code line = '%' :: body) (hc : c.Says body) :
      Says line (.call c)
  | instruction {c : Char} {code : List Char} (h : Text.code line = c :: code) (hp : c ≠ '%') (hd : c ≠ '.') :
      Says line (.instruction (String.ofList (Text.trim line)))

/-- The reader of lines accepts exactly the written forms. -/
theorem read_eq_ok_iff {line : List Char} {s : Statement} : read line = .ok s ↔ Says line s := by
  unfold read
  dsimp only
  rw [Text.code_trim]
  constructor
  · intro h
    split at h
    · rename_i hc
      cases h
      exact .note hc
    · rename_i body hc
      obtain ⟨c, hm, rfl⟩ := map_eq_ok_iff.1 h
      exact .call hc (MacroCall.read_eq_ok_iff.1 hm)
    · rename_i code hc
      cases h
      exact .label hc
    · rename_i hnil hp hd
      cases h
      cases hc : Text.code line with
      | nil => exact absurd hc hnil
      | cons c code => exact .instruction hc (fun e => hp _ (e ▸ hc)) (fun e => hd _ (e ▸ hc))
  · intro h
    cases h with
    | note hc => simp [hc]
    | label hc => simp [hc]
    | call hc hm => simp [hc, MacroCall.read_eq_ok_iff.2 hm, Except.map]
    | instruction hc hp hd =>
      rw [hc]
      split
      · cases ‹_ :: _ = []›
      · cases ‹_ :: _ = '%' :: _›; exact absurd rfl hp
      · cases ‹_ :: _ = '.' :: _›; exact absurd rfl hd
      · rfl

theorem Says.unique {line : List Char} {s t : Statement} (hs : Says line s) (ht : Says line t) : s = t := by
  have := (read_eq_ok_iff.2 hs).symm.trans (read_eq_ok_iff.2 ht)
  simpa using this

end Statement

end Isa16.Source
