import Mathlib.Data.List.Basic
import Mathlib.Tactic

/-! JSON texts: the compact printer, and a parser that reads back what it prints.
Nesting is limited, as it is in parsers that recurse. -/
namespace Daccord

abbrev Json.Digits := {ds : List Char // ds.all Char.isDigit}

structure Json.Number where
  negative : Bool
  whole : ℕ
  fraction : Json.Digits
  exponent : Option (Bool × Json.Digits)
  written : ∀ e ∈ exponent, e.2.val ≠ []

inductive Json
  | null
  | bool (b : Bool)
  | number (n : Json.Number)
  | string (s : String)
  | array (items : List Json)
  | object (fields : List (String × Json))

namespace Json

def Number.ofNat (n : ℕ) : Number := ⟨false,n,⟨[],rfl⟩,none,by simp⟩

/-- The natural number that is written without sign, point and exponent. -/
def Number.toNat? (n : Number) : Option ℕ :=
  if n.negative = false ∧ n.fraction.val = [] ∧ n.exponent = none then some n.whole else none

mutual

def depth : Json → ℕ
  | .null => 0
  | .bool _ => 0
  | .number _ => 0
  | .string _ => 0
  | .array items => itemsDepth items + 1
  | .object fields => fieldsDepth fields + 1

def itemsDepth : List Json → ℕ
  | [] => 0
  | x :: xs => max x.depth (itemsDepth xs)

def fieldsDepth : List (String × Json) → ℕ
  | [] => 0
  | (_,x) :: xs => max x.depth (fieldsDepth xs)

end

/-! ### Printing -/

def quote : Char := '\x22'
def backslash : Char := '\x5c'
def openBrace : Char := '\x7b'
def closeBrace : Char := '\x7d'

def escape (c : Char) : List Char :=
  if c = quote then [backslash,quote]
  else if c = backslash then [backslash,backslash]
  else if c = '\x08' then [backslash,'b']
  else if c = '\x0c' then [backslash,'f']
  else if c = '\n' then [backslash,'n']
  else if c = '\r' then [backslash,'r']
  else if c = '\t' then [backslash,'t']
  else if c.toNat < 32 then
    [backslash,'u','0','0',Nat.digitChar (c.toNat / 16),Nat.digitChar (c.toNat % 16)]
  else [c]

def printString (s : String) : List Char := quote :: (s.toList.flatMap escape ++ [quote])

def Number.printFraction (n : Number) : List Char :=
  if n.fraction.val = [] then [] else '.' :: n.fraction.val

def Number.printExponent (n : Number) : List Char :=
  match n.exponent with
  | none => []
  | some (true,ds) => 'e' :: '-' :: ds.val
  | some (false,ds) => 'e' :: ds.val

def Number.print (n : Number) : List Char :=
  (if n.negative then ['-'] else []) ++ Nat.toDigits 10 n.whole ++ n.printFraction ++
    n.printExponent

mutual

def print : Json → List Char
  | .null => ['n','u','l','l']
  | .bool true => ['t','r','u','e']
  | .bool false => ['f','a','l','s','e']
  | .number n => n.print
  | .string s => printString s
  | .array [] => ['[',']']
  | .array (x :: xs) => '[' :: (x.print ++ printItems xs)
  | .object [] => [openBrace,closeBrace]
  | .object ((name,x) :: fields) =>
    openBrace :: (printString name ++ ':' :: (x.print ++ printFields fields))

def printItems : List Json → List Char
  | [] => [']']
  | x :: xs => ',' :: (x.print ++ printItems xs)

def printFields : List (String × Json) → List Char
  | [] => [closeBrace]
  | (name,x) :: fields => ',' :: (printString name ++ ':' :: (x.print ++ printFields fields))

end

/-! ### Parsing -/

def isSpace (c : Char) : Bool := c = ' ' || c = '\n' || c = '\t' || c = '\r'

def skip (s : List Char) : List Char := s.dropWhile isSpace

def digits (s : List Char) : Digits × List Char :=
  (⟨s.takeWhile Char.isDigit,List.all_takeWhile⟩,s.dropWhile Char.isDigit)

def parseFraction (s : List Char) : Option (Digits × List Char) :=
  match s with
  | '.' :: r => if (digits r).1.val = [] then none else some (digits r)
  | _ => some (⟨[],rfl⟩,s)

def parseExponent (s : List Char) :
    Option ({e : Option (Bool × Digits) // ∀ x ∈ e, x.2.val ≠ []} × List Char) :=
  match s with
  | c :: r =>
    if c = 'e' ∨ c = 'E' then
      let negative := decide (r.head? = some '-')
      let r := if negative ∨ r.head? = some '+' then r.tail else r
      if h : (digits r).1.val = [] then none
      else some (⟨some (negative,(digits r).1),by simpa using h⟩,(digits r).2)
    else some (⟨none,by simp⟩,s)
  | [] => some (⟨none,by simp⟩,s)

def parseNumber (s : List Char) : Option (Number × List Char) :=
  let negative := decide (s.head? = some '-')
  let whole := digits (if negative then s.tail else s)
  -- no digits, or a zero before others
  if whole.1.val = [] ∨ (whole.1.val.head? = some '0' ∧ whole.1.val ≠ ['0']) then none
  else do
    let (fraction,r) ← parseFraction whole.2
    let (exponent,r) ← parseExponent r
    return (⟨negative,Nat.ofDigitChars 10 whole.1.val 0,fraction,exponent.val,exponent.property⟩,r)

def hex (c : Char) : Option ℕ :=
  if c.isDigit then some (c.toNat - 48)
  else if 'a' ≤ c ∧ c ≤ 'f' then some (c.toNat - 87)
  else if 'A' ≤ c ∧ c ≤ 'F' then some (c.toNat - 55)
  else none

def hex4 (a b c d : Char) : Option ℕ := do
  let a ← hex a
  let b ← hex b
  let c ← hex c
  let d ← hex d
  return a * 4096 + b * 256 + c * 16 + d

def unescape (c : Char) : Option Char :=
  if c = quote ∨ c = backslash ∨ c = '/' then some c
  else if c = 'b' then some '\x08'
  else if c = 'f' then some '\x0c'
  else if c = 'n' then some '\n'
  else if c = 'r' then some '\r'
  else if c = 't' then some '\t'
  else none

/-- The rest of a string whose opening quote has been read. -/
def parseString : List Char → Option (List Char × List Char)
  | [] => none
  | c :: r =>
    if c = quote then some ([],r)
    else if c = backslash then
      match r with
      | 'u' :: a :: b :: c :: d :: r =>
        match hex4 a b c d with
        | none => none
        | some n =>
          if 0xd800 ≤ n ∧ n < 0xdc00 then
            -- the first half of a pair
            match r with
            | x :: 'u' :: a :: b :: c :: d :: r =>
              match hex4 a b c d with
              | none => none
              | some m =>
                if x = backslash ∧ 0xdc00 ≤ m ∧ m < 0xe000 then
                  (parseString r).map fun p =>
                    (Char.ofNat ((n - 0xd800) * 0x400 + (m - 0xdc00) + 0x10000) :: p.1,p.2)
                else none
            | _ => none
          else if 0xdc00 ≤ n ∧ n < 0xe000 then none
          else (parseString r).map fun p => (Char.ofNat n :: p.1,p.2)
      | x :: r =>
        match unescape x with
        | none => none
        | some d => (parseString r).map fun p => (d :: p.1,p.2)
      | [] => none
    else if c.toNat < 32 then none
    else (parseString r).map fun p => (c :: p.1,p.2)

def literal (text : List Char) (j : Json) (s : List Char) : Option (Json × List Char) :=
  if text.isPrefixOf s then some (j,s.drop text.length) else none

/-- The name of a field with the colon after it. -/
def parseName (s : List Char) : Option (String × List Char) :=
  match skip s with
  | [] => none
  | c :: r =>
    if c = quote then
      match parseString r with
      | none => none
      | some (name,r) =>
        match skip r with
        | ':' :: r => some (String.ofList name,r)
        | _ => none
    else none

mutual

/-- `remaining` counts the levels that may still be opened, as a number above it. -/
def parseValue : (fuel remaining : ℕ) → List Char → Option (Json × List Char)
  | 0, _, _ => none
  | fuel + 1, remaining, s =>
    match skip s with
    | [] => none
    | c :: r =>
      if c = 'n' then literal ['u','l','l'] .null r
      else if c = 't' then literal ['r','u','e'] (.bool true) r
      else if c = 'f' then literal ['a','l','s','e'] (.bool false) r
      else if c = quote then (parseString r).map fun p => (.string (String.ofList p.1),p.2)
      else if c = '[' then
        if remaining ≤ 1 then none
        else if (skip r).head? = some ']' then some (.array [],(skip r).tail)
        else do
          let (x,r) ← parseValue fuel (remaining - 1) r
          let (xs,r) ← parseItems fuel (remaining - 1) r
          return (.array (x :: xs),r)
      else if c = openBrace then
        if remaining ≤ 1 then none
        else if (skip r).head? = some closeBrace then some (.object [],(skip r).tail)
        else do
          let (name,r) ← parseName r
          let (x,r) ← parseValue fuel (remaining - 1) r
          let (fields,r) ← parseFields fuel (remaining - 1) r
          return (.object ((name,x) :: fields),r)
      else (parseNumber (c :: r)).map fun p => (.number p.1,p.2)

def parseItems : (fuel remaining : ℕ) → List Char → Option (List Json × List Char)
  | 0, _, _ => none
  | fuel + 1, remaining, s =>
    match skip s with
    | [] => none
    | c :: r =>
      if c = ']' then some ([],r)
      else if c = ',' then do
        let (x,r) ← parseValue fuel remaining r
        let (xs,r) ← parseItems fuel remaining r
        return (x :: xs,r)
      else none

def parseFields : (fuel remaining : ℕ) → List Char → Option (List (String × Json) × List Char)
  | 0, _, _ => none
  | fuel + 1, remaining, s =>
    match skip s with
    | [] => none
    | c :: r =>
      if c = closeBrace then some ([],r)
      else if c = ',' then do
        let (name,r) ← parseName r
        let (x,r) ← parseValue fuel remaining r
        let (fields,r) ← parseFields fuel remaining r
        return ((name,x) :: fields,r)
      else none

end

def parse (limit : ℕ) (s : List Char) : Option Json :=
  match parseValue (s.length + 1) limit s with
  | none => none
  | some (j,r) => if skip r = [] then some j else none

/-! ### What is printed is read back -/

/-- What may come after a value. -/
def Ends (rest : List Char) : Prop := ∀ c ∈ rest.head?, c = ',' ∨ c = ']' ∨ c = closeBrace

theorem ends_nil : Ends [] := by
  intro c hc
  cases hc

theorem skip_cons {c : Char} (hc : isSpace c = false) (s : List Char) : skip (c :: s) = c :: s := by
  rw [skip,List.dropWhile_cons_of_neg]
  simp [hc]

/-- A run of digits ends where the digits end. -/
theorem digits_append (ds : Digits) {rest : List Char}
    (hrest : ∀ c ∈ rest.head?, c.isDigit = false) : digits (ds.val ++ rest) = (ds,rest) := by
  obtain ⟨ds,hds⟩ := ds
  have hall : ∀ c ∈ ds, c.isDigit = true := List.all_eq_true.mp hds
  have htake : rest.takeWhile Char.isDigit = [] := by
    cases rest with
    | nil => rfl
    | cons c rest => simp [hrest c rfl]
  have hdrop : rest.dropWhile Char.isDigit = rest := by
    cases rest with
    | nil => rfl
    | cons c rest => simp [hrest c rfl]
  simp only [digits,List.takeWhile_append_of_pos hall,List.dropWhile_append_of_pos hall,htake,hdrop,
    List.append_nil]

theorem digitChar_isDigit {d : ℕ} (h : d < 10) : (Nat.digitChar d).isDigit = true := by
  interval_cases d <;> rfl

theorem toDigits_all (n : ℕ) : (Nat.toDigits 10 n).all Char.isDigit := by
  induction n using Nat.strong_induction_on with
  | _ n ih =>
    rcases Nat.lt_or_ge n 10 with hlt | hge
    · rw [Nat.toDigits_of_lt_base hlt]
      simp [digitChar_isDigit hlt]
    · rw [Nat.toDigits_of_base_le (by omega) hge]
      simp [ih (n / 10) (by omega),digitChar_isDigit (Nat.mod_lt n (by omega))]

/-- No number but zero begins with a zero. -/
theorem toDigits_head {n : ℕ} (h : (Nat.toDigits 10 n).head? = some '0') : Nat.toDigits 10 n = ['0'] := by
  induction n using Nat.strong_induction_on with
  | _ n ih =>
    rcases Nat.lt_or_ge n 10 with hlt | hge
    · rw [Nat.toDigits_of_lt_base hlt] at h ⊢
      simpa using h
    · rw [Nat.toDigits_of_base_le (by omega) hge] at h
      have hne : Nat.toDigits 10 (n / 10) ≠ [] := Nat.toDigits_ne_nil
      rw [List.head?_append_of_ne_nil _ hne] at h
      have hzero := ih (n / 10) (by omega) h
      have hvalue : n / 10 = 0 := by
        rw [← Nat.ofDigitChars_ten_toDigits (n := n / 10),hzero]
        rfl
      omega

theorem parseFraction_print (n : Number) {rest : List Char}
    (hrest : ∀ c ∈ rest.head?, c.isDigit = false ∧ c ≠ '.') :
    parseFraction (n.printFraction ++ rest) = some (n.fraction,rest) := by
  obtain ⟨_,_,fraction,_,_⟩ := n
  unfold Number.printFraction
  split
  · rename_i hnil
    rw [List.nil_append,parseFraction.eq_def]
    split
    · exact absurd rfl (hrest '.' rfl).2
    · exact congrArg some (Prod.ext (Subtype.ext hnil.symm) rfl)
  · rename_i hne
    rw [List.cons_append,parseFraction,digits_append _ fun c hc => (hrest c hc).1,if_neg hne]

theorem parseExponent_print (n : Number) {rest : List Char}
    (hrest : ∀ c ∈ rest.head?, c.isDigit = false ∧ c ≠ 'e' ∧ c ≠ 'E') :
    parseExponent (n.printExponent ++ rest) = some (⟨n.exponent,n.written⟩,rest) := by
  obtain ⟨_,_,_,exponent,written⟩ := n
  have hdigits : ∀ ds : Digits, digits (ds.val ++ rest) = (ds,rest) :=
    fun ds => digits_append ds fun c hc => (hrest c hc).1
  cases exponent with
  | none =>
    simp only [Number.printExponent,List.nil_append]
    cases rest with
    | nil => rfl
    | cons c rest => simp [parseExponent,hrest c rfl]
  | some e =>
    obtain ⟨negative,ds⟩ := e
    have hne : ds.val ≠ [] := written _ rfl
    cases negative with
    | true => simp [Number.printExponent,parseExponent,hdigits,hne]
    | false =>
      -- no sign is taken for one
      obtain ⟨d,tail,hds⟩ := List.exists_cons_of_ne_nil hne
      have hd : d.isDigit = true := by
        have hall := ds.property
        rw [hds] at hall
        exact (Bool.and_eq_true_iff.mp hall).1
      have hsign : d ≠ '-' ∧ d ≠ '+' := by
        constructor <;>
        · rintro rfl
          cases hd
      have hhead : (ds.val ++ rest).head? = some d := by
        rw [hds]
        rfl
      simp [Number.printExponent,parseExponent,hhead,hsign,hdigits,hne]

theorem toDigits_cons (n : ℕ) : ∃ d tail, Nat.toDigits 10 n = d :: tail ∧ d.isDigit = true := by
  obtain ⟨d,tail,hds⟩ := List.exists_cons_of_ne_nil (Nat.toDigits_ne_nil (b := 10) (n := n))
  have hall := toDigits_all n
  rw [hds] at hall
  exact ⟨d,tail,hds,(Bool.and_eq_true_iff.mp hall).1⟩

theorem Number.print_head (n : Number) : ∃ c r, n.print = c :: r ∧ (c.isDigit = true ∨ c = '-') := by
  obtain ⟨d,tail,hds,hd⟩ := toDigits_cons n.whole
  unfold Number.print
  cases n.negative with
  | true => exact ⟨'-',_,rfl,Or.inr rfl⟩
  | false => exact ⟨d,tail ++ n.printFraction ++ n.printExponent,by simp [hds],Or.inl hd⟩

/-- The minus sign stands first exactly in a negative number, and past it the whole part. -/
theorem Number.print_sign (n : Number) (rest : List Char) :
    decide ((n.print ++ rest).head? = some '-') = n.negative ∧
    (if n.negative then (n.print ++ rest).tail else n.print ++ rest) =
      Nat.toDigits 10 n.whole ++ (n.printFraction ++ (n.printExponent ++ rest)) := by
  obtain ⟨d,tail,hds,hdigit⟩ := toDigits_cons n.whole
  have hd : d ≠ '-' := by
    rintro rfl
    cases hdigit
  unfold Number.print
  cases n.negative with
  | true => simp
  | false => simp [hds,hd]

/-- The whole part ends where the fraction, the exponent or the rest begins. -/
theorem Number.whole_print (n : Number) {rest : List Char} (hend : ∀ c ∈ rest.head?, c.isDigit = false) :
    digits (Nat.toDigits 10 n.whole ++ (n.printFraction ++ (n.printExponent ++ rest))) =
      (⟨Nat.toDigits 10 n.whole,toDigits_all _⟩,n.printFraction ++ (n.printExponent ++ rest)) := by
  refine digits_append ⟨Nat.toDigits 10 n.whole,toDigits_all _⟩ fun c hc => ?_
  unfold Number.printFraction Number.printExponent at hc
  split at hc
  · rw [List.nil_append] at hc
    split at hc
    · exact hend c hc
    all_goals
      cases hc
      decide
  · cases hc
    decide

theorem parseNumber_print (n : Number) {rest : List Char} (hrest : Ends rest) :
    parseNumber (n.print ++ rest) = some (n,rest) := by
  have hend : ∀ c ∈ rest.head?, c.isDigit = false ∧ c ≠ '.' ∧ c ≠ 'e' ∧ c ≠ 'E' := by
    intro c hc
    rcases hrest c hc with rfl | rfl | rfl <;> decide
  have hexp := parseExponent_print n fun c hc => ⟨(hend c hc).1,(hend c hc).2.2⟩
  have hfrac : parseFraction (n.printFraction ++ (n.printExponent ++ rest)) =
      some (n.fraction,n.printExponent ++ rest) := by
    refine parseFraction_print n fun c hc => ?_
    unfold Number.printExponent at hc
    split at hc
    · exact ⟨(hend c hc).1,(hend c hc).2.1⟩
    all_goals
      cases hc
      decide
  have hwhole := n.whole_print fun c hc => (hend c hc).1
  have hzero : ¬ (Nat.toDigits 10 n.whole = [] ∨ ((Nat.toDigits 10 n.whole).head? = some '0' ∧
      Nat.toDigits 10 n.whole ≠ ['0'])) := by
    rintro (hnil | ⟨hhead,hne⟩)
    · exact Nat.toDigits_ne_nil hnil
    · exact hne (toDigits_head hhead)
  have hsign := n.print_sign rest
  unfold parseNumber
  simp only [hsign.1,hsign.2,hwhole,if_neg hzero,hfrac,Nat.ofDigitChars_ten_toDigits]
  show (do
    let (exponent,r) ← parseExponent (n.printExponent ++ rest)
    return ((⟨n.negative,n.whole,n.fraction,exponent.val,exponent.property⟩ : Number),r)) = _
  rw [hexp]
  rfl

/-! Strings. -/

theorem hex_digitChar {d : ℕ} (h : d < 16) : hex (Nat.digitChar d) = some d := by
  interval_cases d <;> rfl

theorem parseString_short {c d : Char} (hd : unescape d = some c) (hu : d ≠ 'u') (rest : List Char) :
    parseString (backslash :: d :: rest) = (parseString rest).map fun p => (c :: p.1,p.2) := by
  rw [parseString.eq_def]
  simp only [if_neg (show backslash ≠ quote by decide),if_true]
  split
  · rename_i heq
    cases heq
    exact absurd rfl hu
  · rename_i heq
    cases heq
    simp [hd]
  · rename_i heq
    cases heq

theorem parseString_escape (c : Char) (rest : List Char) :
    parseString (escape c ++ rest) = (parseString rest).map fun p => (c :: p.1,p.2) := by
  unfold escape
  split
  · subst_vars
    exact parseString_short rfl (by decide) rest
  split
  · subst_vars
    exact parseString_short rfl (by decide) rest
  split
  · subst_vars
    exact parseString_short rfl (by decide) rest
  split
  · subst_vars
    exact parseString_short rfl (by decide) rest
  split
  · subst_vars
    exact parseString_short rfl (by decide) rest
  split
  · subst_vars
    exact parseString_short rfl (by decide) rest
  split
  · subst_vars
    exact parseString_short rfl (by decide) rest
  split
  · rename_i hsmall
    have hhex : hex4 '0' '0' (Nat.digitChar (c.toNat / 16)) (Nat.digitChar (c.toNat % 16)) =
        some c.toNat := by
      have hhigh : hex (Nat.digitChar (c.toNat / 16)) = some (c.toNat / 16) := hex_digitChar (by omega)
      have hlow : hex (Nat.digitChar (c.toNat % 16)) = some (c.toNat % 16) := hex_digitChar (by omega)
      have hzero : hex '0' = some 0 := rfl
      simp only [hex4,hhigh,hlow,hzero,Option.bind_eq_bind,Option.bind_some,Option.pure_def,
        Option.some.injEq]
      omega
    have hplain : ¬ (0xd800 ≤ c.toNat ∧ c.toNat < 0xdc00) ∧ ¬ (0xdc00 ≤ c.toNat ∧ c.toNat < 0xe000) := by
      omega
    simp only [List.cons_append,List.nil_append]
    rw [parseString,if_neg (by decide),if_pos rfl]
    simp only [hhex,if_neg hplain.1,if_neg hplain.2,Char.ofNat_toNat]
  · rename_i hquote hbackslash _ _ _ _ _ hlarge
    rw [List.singleton_append,parseString.eq_def]
    simp only [if_neg hquote,if_neg hbackslash,if_neg hlarge]

theorem parseString_print (cs rest : List Char) :
    parseString (cs.flatMap escape ++ quote :: rest) = some (cs,rest) := by
  induction cs with
  | nil => simp [parseString.eq_def]
  | cons c cs ih =>
    rw [List.flatMap_cons,List.append_assoc,parseString_escape,ih]
    rfl

theorem parseName_print (name : String) (rest : List Char) :
    parseName (printString name ++ ':' :: rest) = some (name,rest) := by
  have hcolon : skip (':' :: rest) = ':' :: rest := skip_cons rfl _
  rw [printString,List.cons_append,List.append_assoc,parseName,skip_cons rfl]
  simp only [List.singleton_append,if_true,parseString_print,hcolon,String.ofList_toList]

/-! Values. -/

theorem ends_printItems (xs : List Json) (rest : List Char) : Ends (printItems xs ++ rest) := by
  intro c hc
  cases xs with
  | nil =>
    cases hc
    exact Or.inr (Or.inl rfl)
  | cons x xs =>
    cases hc
    exact Or.inl rfl

theorem ends_printFields (fields : List (String × Json)) (rest : List Char) :
    Ends (printFields fields ++ rest) := by
  intro c hc
  cases fields with
  | nil =>
    cases hc
    exact Or.inr (Or.inr rfl)
  | cons x fields =>
    cases hc
    exact Or.inl rfl

/-- No value begins with a space or a closing bracket. -/
theorem print_head (j : Json) : ∃ c r, j.print = c :: r ∧ isSpace c = false ∧ c ≠ ']' := by
  cases j with
  | null => exact ⟨_,_,rfl,rfl,by decide⟩
  | bool b => cases b <;> exact ⟨_,_,rfl,rfl,by decide⟩
  | number n =>
    obtain ⟨c,r,hprint,hc⟩ := n.print_head
    refine ⟨c,r,hprint,?_,?_⟩
    · by_contra hspace
      simp only [isSpace,Bool.not_eq_false,Bool.or_eq_true,decide_eq_true_eq] at hspace
      rcases hspace with ((rfl | rfl) | rfl) | rfl <;> revert hc <;> decide
    · rintro rfl
      revert hc
      decide
  | string s => exact ⟨_,_,rfl,rfl,by decide⟩
  | array items => cases items <;> exact ⟨_,_,rfl,rfl,by decide⟩
  | object fields => rcases fields with _ | ⟨⟨name,x⟩,fields⟩ <;> exact ⟨_,_,rfl,rfl,by decide⟩

theorem parseValue_number (n : Number) {rest : List Char} (hends : Ends rest) (fuel remaining : ℕ) :
    parseValue (fuel + 1) remaining (n.print ++ rest) = some (.number n,rest) := by
  obtain ⟨c,r,hprint,hc⟩ := n.print_head
  have hnumber := parseNumber_print n hends
  have hspace : isSpace c = false := by
    obtain ⟨c',r',hprint',hspace,_⟩ := print_head (.number n)
    rw [print,hprint] at hprint'
    cases hprint'
    exact hspace
  -- it is not taken for anything else
  have hother : c ≠ 'n' ∧ c ≠ 't' ∧ c ≠ 'f' ∧ c ≠ quote ∧ c ≠ '[' ∧ c ≠ openBrace := by
    refine ⟨?_,?_,?_,?_,?_,?_⟩ <;>
    · rintro rfl
      revert hc
      decide
  obtain ⟨hn,ht,hf,hq,hb,ho⟩ := hother
  rw [hprint,List.cons_append] at hnumber ⊢
  rw [parseValue,skip_cons hspace]
  simp only [if_neg hn,if_neg ht,if_neg hf,if_neg hq,if_neg hb,if_neg ho,hnumber,Option.map_some]

theorem parseValue_string (s : String) (rest : List Char) (fuel remaining : ℕ) :
    parseValue (fuel + 1) remaining (printString s ++ rest) = some (.string s,rest) := by
  rw [printString,List.cons_append,List.append_assoc,List.singleton_append,parseValue,skip_cons rfl]
  simp only [if_neg (show quote ≠ 'n' by decide),if_neg (show quote ≠ 't' by decide),
    if_neg (show quote ≠ 'f' by decide),if_true,parseString_print,Option.map_some,
    String.ofList_toList]

theorem parseValue_array {fuel remaining : ℕ} {items : List Json} {rest : List Char}
    (hopen : 1 < remaining)
    (hitems : ∀ x xs, items = x :: xs →
      parseValue fuel (remaining - 1) (x.print ++ (printItems xs ++ rest)) = some (x,printItems xs ++ rest) ∧
      parseItems fuel (remaining - 1) (printItems xs ++ rest) = some (xs,rest)) :
    parseValue (fuel + 1) remaining (print (.array items) ++ rest) = some (.array items,rest) := by
  have hlevel : ¬ remaining ≤ 1 := Nat.not_le.mpr hopen
  cases items with
  | nil =>
    have hclose : skip (']' :: rest) = ']' :: rest := skip_cons rfl _
    simp only [print,List.cons_append,List.nil_append,parseValue]
    rw [skip_cons rfl]
    simp [quote,hclose,hlevel]
  | cons x xs =>
    obtain ⟨hx,hxs⟩ := hitems x xs rfl
    obtain ⟨c,r,hprint,hspace,hc⟩ := print_head x
    have hmore : (skip (x.print ++ (printItems xs ++ rest))).head? ≠ some ']' := by
      rw [hprint,List.cons_append,skip_cons hspace]
      simpa using hc
    simp only [print,List.cons_append,List.append_assoc,parseValue]
    rw [skip_cons rfl]
    simp [quote,hlevel,hmore,hx,hxs]

theorem parseValue_object {fuel remaining : ℕ} {fields : List (String × Json)} {rest : List Char}
    (hopen : 1 < remaining)
    (hfields : ∀ name x xs, fields = (name,x) :: xs →
      parseValue fuel (remaining - 1) (x.print ++ (printFields xs ++ rest)) = some (x,printFields xs ++ rest) ∧
      parseFields fuel (remaining - 1) (printFields xs ++ rest) = some (xs,rest)) :
    parseValue (fuel + 1) remaining (print (.object fields) ++ rest) = some (.object fields,rest) := by
  have hlevel : ¬ remaining ≤ 1 := Nat.not_le.mpr hopen
  rcases fields with _ | ⟨⟨name,x⟩,xs⟩
  · have hclose : skip (closeBrace :: rest) = closeBrace :: rest := skip_cons rfl _
    simp only [print,List.cons_append,List.nil_append,parseValue]
    rw [skip_cons rfl]
    simp [quote,openBrace,hclose,hlevel]
  · obtain ⟨hx,hxs⟩ := hfields name x xs rfl
    have hmore : (skip (printString name ++ ':' :: (x.print ++ (printFields xs ++ rest)))).head? ≠
        some closeBrace := by
      rw [printString,List.cons_append,skip_cons rfl,List.head?_cons]
      decide
    simp only [print,List.cons_append,List.append_assoc,parseValue]
    rw [skip_cons rfl]
    simp [quote,openBrace,hlevel,hmore,hx,hxs,parseName_print]

theorem parseItems_cons {fuel remaining : ℕ} {x : Json} {xs : List Json} {rest : List Char}
    (hx : parseValue fuel remaining (x.print ++ (printItems xs ++ rest)) = some (x,printItems xs ++ rest))
    (hxs : parseItems fuel remaining (printItems xs ++ rest) = some (xs,rest)) :
    parseItems (fuel + 1) remaining (printItems (x :: xs) ++ rest) = some (x :: xs,rest) := by
  simp only [printItems,List.cons_append,List.append_assoc,parseItems]
  rw [skip_cons rfl]
  simp [hx,hxs]

theorem parseFields_cons {fuel remaining : ℕ} {name : String} {x : Json} {xs : List (String × Json)}
    {rest : List Char}
    (hx : parseValue fuel remaining (x.print ++ (printFields xs ++ rest)) = some (x,printFields xs ++ rest))
    (hxs : parseFields fuel remaining (printFields xs ++ rest) = some (xs,rest)) :
    parseFields (fuel + 1) remaining (printFields ((name,x) :: xs) ++ rest) = some ((name,x) :: xs,rest) := by
  simp only [printFields,List.cons_append,List.append_assoc,parseFields]
  rw [skip_cons rfl]
  simp [parseName_print,hx,hxs,closeBrace]

/-- What the three parsers make of what the three printers wrote, by induction on the
fuel: every bracket, comma and colon pays for a call. -/
theorem parse_print_core (fuel : ℕ) :
    (∀ (j : Json) rest remaining, j.print.length < fuel → j.depth < remaining → Ends rest →
      parseValue fuel remaining (j.print ++ rest) = some (j,rest)) ∧
    (∀ (xs : List Json) rest remaining, (printItems xs).length < fuel → itemsDepth xs < remaining →
      parseItems fuel remaining (printItems xs ++ rest) = some (xs,rest)) ∧
    (∀ (fields : List (String × Json)) rest remaining, (printFields fields).length < fuel →
      fieldsDepth fields < remaining →
      parseFields fuel remaining (printFields fields ++ rest) = some (fields,rest)) := by
  induction fuel with
  | zero => exact ⟨fun _ _ _ h => absurd h (Nat.not_lt_zero _),
      fun _ _ _ h => absurd h (Nat.not_lt_zero _),fun _ _ _ h => absurd h (Nat.not_lt_zero _)⟩
  | succ fuel ih =>
    obtain ⟨hvalue,hitems,hfields⟩ := ih
    refine ⟨fun j rest remaining hfuel hdepth hends => ?_,fun xs rest remaining hfuel hdepth => ?_,
      fun fields rest remaining hfuel hdepth => ?_⟩
    · cases j with
      | null =>
        simp only [print,List.cons_append,List.nil_append,parseValue]
        rw [skip_cons rfl]
        rfl
      | bool b =>
        cases b <;>
        · simp only [print,List.cons_append,List.nil_append,parseValue]
          rw [skip_cons rfl]
          rfl
      | number n => exact parseValue_number n hends fuel remaining
      | string s => exact parseValue_string s rest fuel remaining
      | array items =>
        simp only [depth] at hdepth
        refine parseValue_array (by omega) ?_
        rintro x xs rfl
        simp only [print,List.length_cons,List.length_append] at hfuel
        simp only [itemsDepth] at hdepth
        exact ⟨hvalue x _ _ (by omega) (by omega) (ends_printItems xs rest),
          hitems xs rest _ (by omega) (by omega)⟩
      | object fields =>
        simp only [depth] at hdepth
        refine parseValue_object (by omega) ?_
        rintro name x xs rfl
        simp only [print,List.length_cons,List.length_append] at hfuel
        simp only [fieldsDepth] at hdepth
        exact ⟨hvalue x _ _ (by omega) (by omega) (ends_printFields xs rest),
          hfields xs rest _ (by omega) (by omega)⟩
    · cases xs with
      | nil =>
        simp only [printItems,List.singleton_append,parseItems]
        rw [skip_cons rfl]
        rfl
      | cons x xs =>
        simp only [printItems,List.length_cons,List.length_append] at hfuel
        simp only [itemsDepth,max_lt_iff] at hdepth
        exact parseItems_cons (hvalue x _ _ (by omega) hdepth.1 (ends_printItems xs rest))
          (hitems xs rest _ (by omega) hdepth.2)
    · rcases fields with _ | ⟨⟨name,x⟩,fields⟩
      · simp only [printFields,List.singleton_append,parseFields]
        rw [skip_cons rfl]
        rfl
      · simp only [printFields,List.length_cons,List.length_append] at hfuel
        simp only [fieldsDepth,max_lt_iff] at hdepth
        exact parseFields_cons (hvalue x _ _ (by omega) hdepth.1 (ends_printFields fields rest))
          (hfields fields rest _ (by omega) hdepth.2)

theorem parse_print {j : Json} {limit : ℕ} (h : j.depth < limit) : parse limit j.print = some j := by
  have hvalue := (parse_print_core (j.print.length + 1)).1 j [] limit (Nat.lt_succ_self _) h ends_nil
  rw [List.append_nil] at hvalue
  rw [parse,hvalue]
  rfl

end Json
end Daccord
