import ActionVm.Number.Leading
import Mathlib

namespace ActionVm.Leading

/-- Of `start ++ rest`, the characters of `start` have the property and the next one does not. -/
structure Longest (p : Char → Bool) (start rest : List Char) : Prop where
  all : ∀ c ∈ start, p c = true
  stop : ∀ c ∈ rest.head?, p c = false

namespace Longest

theorem takeWhile_append (h : Longest p start rest) : (start ++ rest).takeWhile p = start := by
  rw [List.takeWhile_append_of_pos h.all]
  cases rest with
  | nil => simp
  | cons c rest => simp [h.stop c rfl]

theorem dropWhile_append (h : Longest p start rest) : (start ++ rest).dropWhile p = rest := by
  rw [List.dropWhile_append_of_pos h.all]
  cases rest with
  | nil => rfl
  | cons c rest => simp [h.stop c rfl]

theorem unique (h : Longest p start rest) (h' : Longest p start' rest') (heq : start ++ rest = start' ++ rest') :
    start = start' ∧ rest = rest' := by
  constructor
  · rw [← h.takeWhile_append, heq, h'.takeWhile_append]
  · rw [← h.dropWhile_append, heq, h'.dropWhile_append]

theorem exists_of (p : Char → Bool) (text : List Char) : ∃ start rest, text = start ++ rest ∧ Longest p start rest := by
  refine ⟨text.takeWhile p, text.dropWhile p, List.takeWhile_append_dropWhile.symm, ?_, ?_⟩
  · intro c hc
    exact List.mem_takeWhile_imp hc
  · intro c hc
    have hstop := List.head?_dropWhile_not p text
    rw [Option.mem_def.mp hc] at hstop
    exact hstop

end Longest

/-- Of `start ++ rest`, `start` is one of the marks, or nothing where none of them stands in front. -/
def Marked (marks : List (List Char)) (start rest : List Char) : Prop :=
  start ∈ marks ∨ start = [] ∧ ∀ mark ∈ marks, ¬mark <+: rest

namespace Marked

theorem unique (hlength : ∀ mark ∈ marks, mark.length = n) (h : Marked marks start rest)
    (h' : Marked marks start' rest') (heq : start ++ rest = start' ++ rest') : start = start' ∧ rest = rest' := by
  rcases h with hmem | ⟨rfl, hnone⟩
  · rcases h' with hmem' | ⟨rfl, hnone'⟩
    · exact List.append_inj heq ((hlength _ hmem).trans (hlength _ hmem').symm)
    · exact absurd ⟨rest, heq⟩ (hnone' start hmem)
  · rcases h' with hmem' | ⟨rfl, -⟩
    · exact absurd ⟨rest', heq.symm⟩ (hnone start' hmem')
    · exact ⟨rfl, heq⟩

theorem exists_of (marks : List (List Char)) (text : List Char) :
    ∃ start rest, text = start ++ rest ∧ Marked marks start rest := by
  by_cases h : ∃ mark ∈ marks, mark <+: text
  · obtain ⟨mark, hmem, rest, rfl⟩ := h
    exact ⟨mark, rest, rfl, .inl hmem⟩
  · exact ⟨[], text, rfl, .inr ⟨rfl, fun mark hmem hlead => h ⟨mark, hmem, hlead⟩⟩⟩

end Marked

def signs : List (List Char) :=
  [['+'], ['-']]

def marks (radix : Option Int) : List (List Char) :=
  if radix = none ∨ radix = some 16 then [['0', 'x'], ['0', 'X']] else []

theorem length_of_mem_signs (h : mark ∈ signs) : mark.length = 1 := by
  revert mark
  decide

theorem length_of_mem_marks (h : mark ∈ marks radix) : mark.length = 2 := by
  unfold marks at h
  split at h
  · revert mark
    decide
  · cases h

/-- A text in parts, the digits of its leading integer among them. -/
structure Cut where
  blanks : List Char
  sign : List Char
  mark : List Char
  digits : List Char
  rest : List Char

namespace Cut

/-- The radix that the digits are read in: 16 behind a mark, and 10 where none is asked for. -/
def base (cut : Cut) (radix : Option Int) : Int :=
  if cut.mark = [] then radix.getD 10 else 16

def accepts (cut : Cut) (radix : Option Int) (c : Char) : Bool :=
  (digit? (cut.base radix).toNat c).isSome

/-- The parts make up the text, and each is as long as it can be. -/
structure Of (radix : Option Int) (text : List Char) (cut : Cut) : Prop where
  whole : text = cut.blanks ++ (cut.sign ++ (cut.mark ++ (cut.digits ++ cut.rest)))
  blanks : Longest isBlank cut.blanks (cut.sign ++ (cut.mark ++ (cut.digits ++ cut.rest)))
  sign : Marked signs cut.sign (cut.mark ++ (cut.digits ++ cut.rest))
  mark : Marked (marks radix) cut.mark (cut.digits ++ cut.rest)
  digits : Longest (cut.accepts radix) cut.digits cut.rest

theorem exists_of (radix : Option Int) (text : List Char) : ∃ cut, Of radix text cut := by
  obtain ⟨blanks, signed, rfl, hblanks⟩ := Longest.exists_of isBlank text
  obtain ⟨sign, unsigned, rfl, hsign⟩ := Marked.exists_of signs signed
  obtain ⟨mark, unmarked, rfl, hmark⟩ := Marked.exists_of (marks radix) unsigned
  obtain ⟨digits, rest, rfl, hdigits⟩ :=
    Longest.exists_of (fun c => (digit? (if mark = [] then radix.getD 10 else 16).toNat c).isSome) unmarked
  exact ⟨⟨blanks, sign, mark, digits, rest⟩, rfl, hblanks, hsign, hmark, hdigits⟩

theorem Of.unique (h : Of radix text cut) (h' : Of radix text cut') : cut = cut' := by
  cases cut with | mk blanks sign mark digits rest => ?_
  cases cut' with | mk blanks' sign' mark' digits' rest' => ?_
  obtain ⟨rfl, hsigned⟩ := h.blanks.unique h'.blanks (h.whole.symm.trans h'.whole)
  obtain ⟨rfl, hunsigned⟩ := h.sign.unique (fun _ => length_of_mem_signs) h'.sign hsigned
  obtain ⟨rfl, hunmarked⟩ := h.mark.unique (fun _ => length_of_mem_marks) h'.mark hunsigned
  obtain ⟨rfl, rfl⟩ := h.digits.unique h'.digits hunmarked
  rfl

end Cut

theorem sign_append (h : Marked signs start rest) : sign (start ++ rest) = (decide (start = ['-']), rest) := by
  rcases h with hmem | ⟨rfl, hnone⟩
  · rw [signs, List.mem_pair] at hmem
    rcases hmem with rfl | rfl <;> rfl
  · have hplus := hnone ['+'] (by decide)
    have hminus := hnone ['-'] (by decide)
    cases rest with
    | nil => rfl
    | cons c rest =>
      simp only [List.cons_prefix_cons, List.nil_prefix, and_true] at hplus hminus
      simp [sign, Ne.symm hplus, Ne.symm hminus]

theorem hexDigits?_of_mem (h : mark ∈ [['0', 'x'], ['0', 'X']]) : hexDigits? (mark ++ rest) = some rest := by
  rw [List.mem_pair] at h
  rcases h with rfl | rfl <;> rfl

theorem hexDigits?_of_none (h : ∀ mark ∈ [['0', 'x'], ['0', 'X']], ¬mark <+: rest) : hexDigits? rest = none := by
  unfold hexDigits?
  split
  · exact absurd (List.prefix_append ['0', 'x'] _) (h _ (by decide))
  · exact absurd (List.prefix_append ['0', 'X'] _) (h _ (by decide))
  · rfl

theorem radix?_append (h : Marked (marks radix) start rest) :
    radix? radix (start ++ rest) =
      let base := if start = [] then radix.getD 10 else 16
      if 2 ≤ base ∧ base ≤ 36 then some (base.toNat, rest) else none := by
  unfold marks at h
  split at h
  · rename_i hradix
    rcases h with hmem | ⟨rfl, hnone⟩
    · have hne : start ≠ [] := fun hnil => by
        subst hnil
        revert hmem
        decide
      rcases hradix with rfl | rfl <;> simp [radix?, hexDigits?_of_mem hmem, hne]
    · rcases hradix with rfl | rfl <;> simp [radix?, hexDigits?_of_none hnone]
  · rename_i hradix
    rcases h with hmem | ⟨rfl, -⟩
    · cases hmem
    · cases radix with
      | none => simp at hradix
      | some r =>
        have hr : r ≠ 16 := fun he => hradix (.inr (congrArg some he))
        simp [radix?, hr]

def denoted (radix : Nat) (digits : List Char) : Nat :=
  Nat.ofDigits radix (digits.filterMap (digit? radix)).reverse

theorem denoted_append (h : digit? radix c = some d) (digits : List Char) :
    denoted radix (digits ++ [c]) = radix * denoted radix digits + d := by
  simp [denoted, h, Nat.ofDigits_cons, Nat.add_comm]

def limit : Int :=
  2 ^ 63 - 1

theorem toInt_clamp {n : Int} (h : 0 ≤ n) : (Int64.ofIntClamp n).toInt = min n limit := by
  have hmin : Int64.minValue.toInt ≤ n := Int.le_trans (by decide) h
  rcases Int.le_total n limit with hle | hge
  · rw [Int64.toInt_ofIntClamp hmin hle, min_eq_left hle]
  · rcases hge.eq_or_lt with rfl | hlt
    · rfl
    · have hmax : ¬n ≤ Int64.maxValue.toInt := not_le.mpr hlt
      rw [Int64.ofIntClamp, dif_pos hmin, dif_neg hmax, min_eq_right hge]
      rfl

/-- Taking in a digit keeps the word as near to the number as words go. -/
theorem toInt_append {n : Nat} (hradix : 1 ≤ radix) (h : value.toInt = min (n : Int) limit) (d : Nat) :
    (append radix value d).toInt = min ((radix * n + d : Nat) : Int) limit := by
  have hlimit : 0 ≤ limit := by decide
  have hone : (1 : Int) ≤ radix := by exact_mod_cast hradix
  have hnonneg : 0 ≤ value.toInt := by
    rw [h]
    exact le_min (Int.natCast_nonneg n) hlimit
  have hproduct : (Int64.ofIntClamp (value.toInt * radix)).toInt = min ((radix * n : Nat) : Int) limit := by
    rw [toInt_clamp (by positivity), h]
    push_cast
    rcases Int.le_total n limit with hle | hge
    · rw [min_eq_left hle, mul_comm]
    · -- the word has stopped at the limit, and so has every product of it
      rw [min_eq_right hge, min_eq_right (by nlinarith), min_eq_right (by nlinarith)]
  rw [append, hproduct, toInt_clamp (by positivity)]
  push_cast
  omega

theorem toInt_word (hradix : 1 ≤ radix) (hdigits : ∀ c ∈ digits, (digit? radix c).isSome = true) :
    (word radix digits).toInt = min (denoted radix digits : Int) limit := by
  induction digits using List.reverseRecOn with
  | nil => rfl
  | append_singleton digits c ih =>
    obtain ⟨d, hd⟩ := Option.isSome_iff_exists.mp (hdigits c (by simp))
    have hword := ih fun x hx => hdigits x (List.mem_append_left _ hx)
    rw [denoted_append hd, word, List.foldl_append]
    simp only [List.foldl_cons, List.foldl_nil, hd, Option.getD_some]
    exact toInt_append hradix hword d

theorem toInt_neg_word {v : Int64} (h : v.toInt = min (n : Int) limit) (hn : 0 ≤ n) : (-v).toInt = -v.toInt := by
  have hle : v.toInt ≤ 2 ^ 63 - 1 := h ▸ min_le_right ..
  have hnonneg : 0 ≤ v.toInt := h ▸ le_min hn (by decide)
  rw [Int64.toInt_neg]
  exact Int.bmod_eq_of_le (by omega) (by omega)

theorem integer?_of_cut {text : String} (h : Cut.Of radix text.toList cut) :
    (integer? text radix).map Int64.toInt =
      if 2 ≤ cut.base radix ∧ cut.base radix ≤ 36 ∧ cut.digits ≠ [] then
        some ((if cut.sign = ['-'] then -1 else 1) * min (denoted (cut.base radix).toNat cut.digits : Int) limit)
      else none := by
  have hsigned : text.toList.dropWhile isBlank = cut.sign ++ (cut.mark ++ (cut.digits ++ cut.rest)) := by
    rw [h.whole, h.blanks.dropWhile_append]
  have hradix : radix? radix (cut.mark ++ (cut.digits ++ cut.rest)) =
      if 2 ≤ cut.base radix ∧ cut.base radix ≤ 36 then some ((cut.base radix).toNat, cut.digits ++ cut.rest)
      else none := radix?_append h.mark
  have hdigits : (cut.digits ++ cut.rest).takeWhile (fun c => (digit? (cut.base radix).toNat c).isSome) = cut.digits :=
    h.digits.takeWhile_append
  rw [integer?, hsigned, sign_append h.sign]
  dsimp only
  rw [hradix]
  by_cases hbase : 2 ≤ cut.base radix ∧ cut.base radix ≤ 36
  · have hradix : 1 ≤ (cut.base radix).toNat := by omega
    have hword := toInt_word hradix h.digits.all
    rw [if_pos hbase, Option.bind_some, hdigits]
    by_cases hempty : cut.digits = []
    · simp [hempty]
    · by_cases hsign : cut.sign = ['-']
      · simp [hempty, hbase, hsign, toInt_neg_word hword (Int.natCast_nonneg _), hword]
      · simp [hempty, hbase, hsign, hword]
  · rw [if_neg hbase, if_neg fun hall => hbase ⟨hall.1, hall.2.1⟩]
    rfl

/-- A text is cut in one way only, and starts with no integer if the radix is not one of 2 to 36 or no digit of it
follows. Otherwise the integer is the number that the digits denote, with the sign, as far as words go. The word
behind each digit is exact up to there, so that nothing wraps around. -/
theorem leading_integer_saturates (text : String) (radix : Option Int) :
    ∃ cut, Cut.Of radix text.toList cut ∧ (∀ other, Cut.Of radix text.toList other → other = cut) ∧
      (integer? text radix = none ↔ ¬(2 ≤ cut.base radix ∧ cut.base radix ≤ 36) ∨ cut.digits = []) ∧
      (2 ≤ cut.base radix → cut.base radix ≤ 36 → cut.digits ≠ [] →
        ∃ n, integer? text radix = some n ∧ n.toInt =
          (if cut.sign = ['-'] then -1 else 1) * min (denoted (cut.base radix).toNat cut.digits : Int) (2 ^ 63 - 1)) ∧
      ∀ taken, taken <+: cut.digits → 2 ≤ cut.base radix →
        (word (cut.base radix).toNat taken).toInt = min (denoted (cut.base radix).toNat taken : Int) (2 ^ 63 - 1) := by
  obtain ⟨cut, hcut⟩ := Cut.exists_of radix text.toList
  have hinteger := integer?_of_cut hcut
  refine ⟨cut, hcut, fun other hother => hother.unique hcut, ?_, ?_, ?_⟩
  · rw [← Option.map_eq_none_iff (f := Int64.toInt), hinteger, ite_eq_right_iff]
    simp only [reduceCtorEq, imp_false, not_and_or, ne_eq, not_not, or_assoc]
  · intro hlow hhigh hdigits
    rw [if_pos ⟨hlow, hhigh, hdigits⟩] at hinteger
    exact Option.map_eq_some_iff.mp hinteger
  · intro taken htaken hbase
    exact toInt_word (by omega) fun c hc => hcut.digits.all c (htaken.subset hc)

example : integer? "\t-0XfFfFfFfFfFfFfFfFf.5" none = some (-0x7fffffffffffffff) := by decide +kernel

end ActionVm.Leading
