import Mathlib.Data.List.Infix
import Mathlib.Data.List.TakeWhile
import SpacePony.Compiler.Ast.LexintExact
import SpacePony.Compiler.Lexer.Safety

/-!
# Compiler — integer literals

What `lex_integer` reads: the characters from its position up to the first that cannot be part of
the number (`numeral`).  Literals are read exactly but for those whose digits the 32-bit counter
counts as none (`lex_integer_exact_iff`).
-/

namespace SpacePony.Lexing

open Option List Hoare Syntax

/-- The character can be part of a number: an underscore or a digit of some base, and not the
exponent mark where that ends the number. -/
def isNumeral (endOnE : Bool) (c : Char) : Bool :=
  c = '_' || ((anyDigit c).isSome && !(endOnE && (c = 'e' || c = 'E')))

/-- The characters of the number at the front of a text. -/
def numeral (endOnE : Bool) (text : List Char) : List Char := text.takeWhile (isNumeral endOnE)

/-- The digits of a numeral. -/
def digits (cs : List Char) : List Nat := cs.filterMap anyDigit

/-- The digits written after `value`. -/
def valueOf (base value : Nat) (ds : List Nat) : Nat := ds.foldl (fun v d => v * base + d) value

/-- The numeral is a number of the base that fits 128 bits after `value`. -/
structure WellFormed (base value : Nat) (cs : List Char) : Prop where
  some_digit : digits cs ≠ []
  no_double : ¬ ['_', '_'] <:+: cs
  no_trailing : cs.getLast? ≠ some '_'
  below : ∀ d ∈ digits cs, d < base
  fits : valueOf base value (digits cs) < 2 ^ 128

/-- What `lex_integer` is to return for a numeral: a result exactly when it is well formed, and
then its value. -/
structure ReadsExactly (base value : Nat) (cs : List Char) (r : IntegerResult) : Prop where
  succeeds : r.isSome = true ↔ WellFormed base value cs
  exact : ∀ p ∈ r, p.1.val = valueOf base value (digits cs)

/-- The loop of `lex_integer` on a numeral: the value so far, the 32-bit count of the digits, and
whether an underscore came last. -/
def scanDigits (base : Nat) : List Char → Nat → Nat → Bool → Option (Nat × Nat)
  | [], value, count, under => if count = 0 then none else if under then none else some (value, count)
  | c :: cs, value, count, under =>
    if c = '_' then if under then none else scanDigits base cs value count true
    else
      match anyDigit c with
      | none => none
      | some digit =>
        if base ≤ digit then none
        else if value * base + digit < 2 ^ 128 then
          scanDigits base cs (value * base + digit) ((count + 1) % 2 ^ 32) false
        else none

theorem scanDigits_digit {base value count d : Nat} {under : Bool} {c : Char} {cs : List Char}
    (hc : c ≠ '_') (hd : anyDigit c = some d) : scanDigits base (c :: cs) value count under =
      if base ≤ d then none
      else if value * base + d < 2 ^ 128 then
        scanDigits base cs (value * base + d) ((count + 1) % 2 ^ 32) false
      else none := by
  rw [scanDigits, if_neg hc, hd]

theorem numeral_cons {endOnE : Bool} {c : Char} (cs : List Char) (h : isNumeral endOnE c = true) :
    numeral endOnE (c :: cs) = c :: numeral endOnE cs := takeWhile_cons_of_pos h

theorem numeral_end {endOnE : Bool} {c : Char} (cs : List Char) (h : ¬ isNumeral endOnE c = true) :
    numeral endOnE (c :: cs) = [] := takeWhile_cons_of_neg h

/-! ### The loop on the numeral -/

section
variable {s : Lexer} {base : Nat} {endOnE : Bool} {context : String}

theorem rest_of_len_zero (hs : s.Ok) (h : s.len = 0) : s.rest = [] :=
  eq_nil_of_length_eq_zero (hs.length_rest.trans h)

theorem rest_cons (hs : s.Ok) (h : 1 ≤ s.len) : s.rest = s.peek 1 :: s.rest.drop 1 := by
  have hlen := hs.length_rest
  rw [Lexer.peek, if_neg (by omega)]
  cases e : s.rest with
  | nil => simp [e] at hlen; omega
  | cons c cs => simp

/-- One character consumed is one character less of the numeral. -/
theorem rest_consumed {s' : Lexer} (h : Advance s s') (hlen : s'.len + 1 = s.len) :
    s'.rest = s.rest.drop 1 := by
  rw [h.rest_eq]
  congr 1
  omega

/-- The result of a program is the given one, up to what the words of the value are. -/
def Returns (p : Option (Nat × Nat)) (r : IntegerResult) (_ : Lexer) : Prop :=
  r.map (fun q => (q.1.val, q.2)) = p

theorem lexIntegerEnd_scan {value : Lexint} {count : Nat} {under : Bool} :
    Wp (lexIntegerEnd context value count under)
      (Returns (scanDigits base [] value.val count under)) s := by
  refine wp_ite (fun h0 => ?_) fun h0 => wp_ite (fun hu => ?_) fun hu => wp_pure ?_
  · exact wp_bind (wp_lexError fun _ _ _ => wp_pure (by rw [scanDigits, if_pos h0]; rfl))
  · exact wp_bind (wp_lexError fun _ _ _ => wp_pure (by
      rw [scanDigits, if_neg h0, if_pos hu]
      rfl))
  · rw [scanDigits, if_neg h0, if_neg hu]
    rfl

/-- **The loop of `lex_integer` scans the numeral.** -/
theorem lexIntegerLoop_scan {n : Nat} {value : Lexint} {count : Nat} {under : Bool}
    (hbase : base ≤ 36) (hs : s.Ok) (hn : s.len < n) :
    Wp (lexIntegerLoop base endOnE context n value count under)
      (Returns (scanDigits base (numeral endOnE s.rest) value.val count under)) s := by
  induction n generalizing s value count under with
  | zero => omega
  | succ n ih =>
    refine wp_bind (wp_isEof (wp_ite (fun heof => ?_) fun heof => ?_))
    · have hlen : s.len = 0 := by simpa using heof
      rw [rest_of_len_zero hs hlen]
      exact lexIntegerEnd_scan
    have hlen : 1 ≤ s.len := by
      have hne : s.len ≠ 0 := by simpa using heof
      omega
    have hrest := rest_cons hs hlen
    obtain ⟨c, hc⟩ : ∃ c, c = s.peek 1 := ⟨_, rfl⟩
    rw [← hc] at hrest
    refine wp_bind (wp_look hs ?_)
    rw [← hc, hrest]
    refine wp_ite (fun hunder => ?_) fun hunder => ?_
    · rw [numeral_cons _ (by simp [isNumeral, hunder]), scanDigits, if_pos hunder]
      refine wp_ite (fun hu => ?_) fun hu => ?_
      · rw [if_pos hu]
        exact wp_bind (wp_lexError fun _ _ _ => wp_pure rfl)
      rw [if_neg hu]
      refine wp_bind (wp_consumeChars hs hlen fun s₁ h₁ hlen₁ _ => ?_)
      rw [← rest_consumed h₁ hlen₁]
      exact ih (h₁.ok hs) (by omega)
    refine wp_ite (fun he => ?_) fun he => ?_
    · rw [numeral_end _ (by rcases he with ⟨h, h' | h'⟩ <;> simp [isNumeral, h, h'])]
      exact lexIntegerEnd_scan
    cases hd : anyDigit c with
    | none =>
      rw [numeral_end _ (by simp [isNumeral, hunder, hd])]
      exact lexIntegerEnd_scan
    | some digit =>
      have hnum : isNumeral endOnE c = true := by
        by_cases h : endOnE = true
        · have hc := not_or.1 fun h' => he ⟨h, h'⟩
          simp [isNumeral, hd, hc.1, hc.2]
        · simp [isNumeral, hd, h]
      rw [numeral_cons _ hnum, scanDigits_digit hunder hd]
      refine wp_ite (fun hge => ?_) fun hlt => ?_
      · rw [if_pos hge]
        exact wp_bind (wp_lexError fun _ _ _ => wp_pure rfl)
      rw [if_neg hlt]
      have hdigit : (UInt64.ofNat digit).toNat = digit :=
        Lexint.toNat_ofNat_of_lt (by omega)
      have hb : (UInt64.ofNat base).toNat = base := Lexint.toNat_ofNat_of_lt (by omega)
      have hlt64 : UInt64.ofNat digit < UInt64.ofNat base := by
        rw [UInt64.lt_iff_toNat_lt, hdigit, hb]
        omega
      have haccum := value.accum_spec hlt64
      rw [hdigit, hb] at haccum
      cases ha : value.accum (UInt64.ofNat digit) (UInt64.ofNat base) with
      | none =>
        rw [ha] at haccum
        rw [if_neg fun hfit => by rw [if_pos hfit] at haccum; cases haccum]
        exact wp_bind (wp_lexError fun _ _ _ => wp_pure rfl)
      | some next =>
        rw [ha, map_some] at haccum
        have hfit : value.val * base + digit < 2 ^ 128 := by
          by_contra hno
          rw [if_neg hno] at haccum
          cases haccum
        rw [if_pos hfit, some.injEq] at haccum
        rw [if_pos hfit, ← haccum]
        refine wp_bind (wp_consumeChars hs hlen fun s₁ h₁ hlen₁ _ => ?_)
        rw [← rest_consumed h₁ hlen₁]
        exact ih (h₁.ok hs) (by omega)

end

/-! ### The scan of a numeral -/

/-- Underscores come one at a time and not last; `under` says that one came just before. -/
def single : Bool → List Char → Bool
  | under, [] => !under
  | under, c :: cs => if c = '_' then !under && single true cs else single false cs

section
variable {base value count : Nat} {under : Bool} {c : Char} {cs : List Char}

theorem single_iff (cs : List Char) (under : Bool) :
    single under cs = true ↔ ¬ ['_', '_'] <:+: cs ∧ cs.getLast? ≠ some '_' ∧
      (under = true → cs ≠ [] ∧ cs.head? ≠ some '_') := by
  induction cs generalizing under with
  | nil => simp [single]
  | cons c cs ih =>
    have hinfix : ['_', '_'] <:+: c :: cs ↔ (c = '_' ∧ cs.head? = some '_') ∨ ['_', '_'] <:+: cs := by
      rw [infix_cons_iff]
      refine or_congr ?_ Iff.rfl
      cases cs <;> simp [cons_prefix_cons, eq_comm]
    have hlast : (c :: cs).getLast? = some '_' ↔ (cs = [] ∧ c = '_') ∨ cs.getLast? = some '_' := by
      cases cs with
      | nil => simp
      | cons d cs => simp [getLast?_cons_cons]
    rw [single, hinfix, Ne, hlast]
    split
    case isTrue hc =>
      subst hc
      rw [Bool.and_eq_true, ih]
      cases under with
      | false =>
        simp
        tauto
      | true => simp
    case isFalse hc =>
      rw [ih]
      simp [hc]

theorem le_valueOf (hb : 0 < base) (value : Nat) (ds : List Nat) : value ≤ valueOf base value ds := by
  induction ds generalizing value with
  | nil => exact le_rfl
  | cons d ds ih =>
    have := ih (value * base + d)
    have hle : value ≤ value * base := Nat.le_mul_of_pos_right _ hb
    exact (by omega : value ≤ value * base + d).trans this

theorem digits_cons_underscore (cs : List Char) : digits ('_' :: cs) = digits cs :=
  filterMap_cons_none (by decide)

theorem digits_cons {d : Nat} (h : anyDigit c = some d) (cs : List Char) :
    digits (c :: cs) = d :: digits cs := filterMap_cons_some h

/-- **The scan of a numeral succeeds when it is a number of the base that fits**, with single
underscores, and the 32-bit count of its digits is not 0. -/
theorem scanDigits_eq (hb : 0 < base) (hcs : ∀ c ∈ cs, c = '_' ∨ (anyDigit c).isSome)
    (hv : value < 2 ^ 128) (hcount : count < 2 ^ 32) : scanDigits base cs value count under =
      if (∀ d ∈ digits cs, d < base) ∧ single under cs = true ∧
          valueOf base value (digits cs) < 2 ^ 128 ∧ (count + (digits cs).length) % 2 ^ 32 ≠ 0 then
        some (valueOf base value (digits cs), (count + (digits cs).length) % 2 ^ 32)
      else none := by
  induction cs generalizing value count under with
  | nil =>
    have hmod : count % 2 ^ 32 = count := Nat.mod_eq_of_lt hcount
    have hd : digits [] = [] := rfl
    rw [scanDigits, hd, length_nil, Nat.add_zero, hmod]
    by_cases h0 : count = 0
    · rw [if_pos h0, if_neg fun h => h.2.2.2 h0]
    rw [if_neg h0]
    cases under with
    | true => rw [if_pos rfl, if_neg fun h => absurd h.2.1 (by decide)]
    | false =>
      rw [if_neg (by decide), if_pos ⟨fun d hd => absurd hd not_mem_nil, rfl, hv, h0⟩]
      rfl
  | cons c cs ih =>
    have hcs' : ∀ c ∈ cs, c = '_' ∨ (anyDigit c).isSome :=
      fun d hd => hcs d (.tail _ hd)
    by_cases hunder : c = '_'
    · subst hunder
      rw [scanDigits, if_pos rfl, digits_cons_underscore, single, if_pos rfl]
      cases under with
      | true => simp
      | false => rw [if_neg (by decide), ih hcs' hv hcount]; rfl
    obtain ⟨d, hd⟩ := isSome_iff_exists.1
      ((hcs c (.head _)).resolve_left hunder)
    rw [scanDigits_digit hunder hd, digits_cons hd, single, if_neg hunder, length_cons]
    have hvalue : valueOf base value (d :: digits cs)
        = valueOf base (value * base + d) (digits cs) := rfl
    have hlen : (count + 1) % 2 ^ 32 + (digits cs).length ≡
        count + ((digits cs).length + 1) [MOD 2 ^ 32] := by
      have := (Nat.mod_modEq (count + 1) (2 ^ 32)).add_right (digits cs).length
      rwa [show count + 1 + (digits cs).length = count + ((digits cs).length + 1) by omega]
        at this
    rw [hvalue]
    by_cases hlt : d < base
    · rw [if_neg (Nat.not_le_of_lt hlt)]
      by_cases hfit : value * base + d < 2 ^ 128
      · rw [if_pos hfit, ih hcs' hfit (Nat.mod_lt _ (by decide)), hlen]
        simp only [forall_mem_cons, hlt, true_and]
      · have hbig := le_valueOf hb (value * base + d) (digits cs)
        rw [if_neg hfit, if_neg fun h => hfit (lt_of_le_of_lt hbig h.2.2.1)]
    · rw [if_pos (Nat.le_of_not_lt hlt), if_neg fun h => hlt (h.1 d (.head _))]

end

/-! ### The literals -/

section
variable {s : Lexer} {base : Nat} {endOnE : Bool} {context : String} {value : Lexint}

/-- The result of `lex_integer`, by its numeral. -/
theorem lexInteger_spec (base : Nat) (value : Lexint) (endOnE : Bool) (context : String)
    (hb : 0 < base) (hbase : base ≤ 36) (hs : s.Ok) :
    ∃ r s', lexInteger base value endOnE context s = .ok (r, s') ∧
      (r.isSome = true ↔ WellFormed base value.val (numeral endOnE s.rest) ∧
        (digits (numeral endOnE s.rest)).length % 2 ^ 32 ≠ 0) ∧
      ∀ p ∈ r, p.1.val = valueOf base value.val (digits (numeral endOnE s.rest)) := by
  obtain ⟨cs, hcs⟩ : ∃ cs, cs = numeral endOnE s.rest := ⟨_, rfl⟩
  have hnumeral : ∀ c ∈ cs, c = '_' ∨ (anyDigit c).isSome := by
    intro c hc
    have hp : isNumeral endOnE c = true := mem_takeWhile_imp (hcs ▸ hc)
    simp only [isNumeral, Bool.or_eq_true, decide_eq_true_eq, Bool.and_eq_true] at hp
    exact hp.imp_right And.left
  obtain ⟨r, s', hrun, hr⟩ : Wp (lexInteger base value endOnE context)
      (Returns (scanDigits base cs value.val 0 false)) s := by
    rw [hcs]
    exact wp_bind (wp_get (lexIntegerLoop_scan hbase hs (Nat.lt_succ_self _)))
  rw [Returns, scanDigits_eq hb hnumeral value.val_lt (by decide), Nat.zero_add] at hr
  have hsingle := single_iff cs false
  refine ⟨r, s', hrun, ?_, fun p hp => ?_⟩
  · rw [← hcs, ← isSome_map (f := fun q : Lexint × Nat => (q.1.val, q.2)), hr]
    constructor
    · intro h
      split at h
      case isFalse => cases h
      case isTrue hall =>
        obtain ⟨hbelow, hs, hfits, hcount⟩ := hall
        obtain ⟨hdouble, hlast, -⟩ := hsingle.1 hs
        refine ⟨⟨fun he => hcount ?_, hdouble, hlast, hbelow, hfits⟩, hcount⟩
        rw [he, length_nil, Nat.zero_mod]
    rintro ⟨h, hcount⟩
    rw [if_pos ⟨h.below, hsingle.2 ⟨h.no_double, h.no_trailing, fun h => by cases h⟩, h.fits,
      hcount⟩]
    rfl
  rw [mem_def.1 hp, map_some] at hr
  split at hr
  case isFalse => cases hr
  case isTrue => exact hcs ▸ (Prod.ext_iff.1 (some.inj hr)).1

/-- **Integer literals are read exactly**, but for those whose digits the 32-bit counter counts as
none: a positive multiple of `2 ^ 32` digits. -/
theorem lex_integer_exact_iff (base : Nat) (value : Lexint) (endOnE : Bool) (context : String)
    (s : Lexer) (hbase : base = 2 ∨ base = 10 ∨ base = 16) (hs : s.Ok) :
    (∀ (i : Lexint) (digit base : UInt64), digit < base → (i.accum digit base).map Lexint.val =
        if i.val * base.toNat + digit.toNat < 2 ^ 128 then
          some (i.val * base.toNat + digit.toNat)
        else none) ∧
    ((∃ r s', lexInteger base value endOnE context s = .ok (r, s') ∧
        ReadsExactly base value.val (numeral endOnE s.rest) r) ↔
      ¬ (WellFormed base value.val (numeral endOnE s.rest) ∧
        2 ^ 32 ∣ (digits (numeral endOnE s.rest)).length)) := by
  refine ⟨fun i digit base h => i.accum_spec h, ?_⟩
  obtain ⟨r, s', hrun, hsome, hvalue⟩ := lexInteger_spec base value endOnE context
    (by omega) (by omega) hs
  constructor
  · rintro ⟨r', s'', hrun', hreads⟩ ⟨hwf, hdvd⟩
    rw [hrun] at hrun'
    cases hrun'
    exact (hsome.1 (hreads.succeeds.2 hwf)).2 (Nat.mod_eq_zero_of_dvd hdvd)
  · intro h
    refine ⟨r, s', hrun, hsome.trans ⟨And.left, fun hwf => ⟨hwf, fun hmod => ?_⟩⟩, hvalue⟩
    exact h ⟨hwf, Nat.dvd_of_mod_eq_zero hmod⟩

end

/-! ### A literal of zeros -/

/-- A source of zeros. -/
def zeros (n : Nat) : Lexer := lexerOpen (replicate n '0') false

theorem rest_zeros (n : Nat) : (zeros n).rest = replicate n '0' := rfl

theorem ok_zeros (n : Nat) : (zeros n).Ok := by
  rw [Lexer.Ok, zeros, lexerOpen]
  simp

theorem numeral_zeros (n : Nat) : numeral true (zeros n).rest = replicate n '0' := by
  rw [rest_zeros, numeral, takeWhile_eq_self_iff]
  intro c hc
  rw [eq_of_mem_replicate hc]
  rfl

theorem digits_zeros (n : Nat) : digits (replicate n '0') = replicate n 0 := by
  rw [digits, filterMap_replicate]
  rfl

theorem wellFormed_zeros {n : Nat} (h : 0 < n) : WellFormed 10 0 (replicate n '0') := by
  have hne : ('_' : Char) ∉ replicate n '0' := fun hm => by
    have := eq_of_mem_replicate hm
    cases this
  refine ⟨?_, fun hd => hne (hd.subset (.head _)), fun hl => hne ?_, fun d hd => ?_, ?_⟩
  · rw [digits_zeros, ne_eq, replicate_eq_nil_iff]
    omega
  · exact mem_of_getLast? hl
  · rw [digits_zeros] at hd
    rw [eq_of_mem_replicate hd]
    decide
  have hzero : ∀ m : Nat, valueOf 10 0 (replicate m 0) = 0 := by
    intro m
    induction m with
    | zero => rfl
    | succ m ih => exact ih
  rw [digits_zeros, hzero]
  decide

/-- A literal of `2 ^ 32` zeros is a number, and `lex_integer` reports that it has no digits. -/
theorem zeros_not_read : WellFormed 10 0 (numeral true (zeros (2 ^ 32)).rest) ∧
      ¬ ∃ r s', lexInteger 10 .zero true "decimal number" (zeros (2 ^ 32)) = .ok (r, s') ∧
        ReadsExactly 10 0 (numeral true (zeros (2 ^ 32)).rest) r := by
  obtain ⟨n, hn⟩ : ∃ n, n = 2 ^ 32 := ⟨_, rfl⟩
  rw [← hn]
  have hwf : WellFormed 10 0 (numeral true (zeros n).rest) := by
    rw [numeral_zeros]
    exact wellFormed_zeros (by omega)
  refine ⟨hwf, ?_⟩
  rintro ⟨r, s', hrun, hreads⟩
  obtain ⟨r', s'', hrun', hsome, -⟩ := lexInteger_spec 10 .zero true "decimal number"
    (by decide) (by decide) (ok_zeros n)
  rw [hrun] at hrun'
  cases hrun'
  refine (hsome.1 (hreads.succeeds.2 hwf)).2 ?_
  rw [numeral_zeros, digits_zeros, length_replicate, hn]
  decide

/-- Three zeros and the product of the largest value with the smallest base. -/
theorem lex_integer_exact_iff_three_zeros :
    (Lexint.accum ⟨0, 1⟩ 1 2).map Lexint.val = some (2 ^ 65 + 1) ∧
      ∃ r s', lexInteger 10 .zero true "decimal number" (zeros 3) = .ok (r, s') ∧
        ReadsExactly 10 0 (numeral true (zeros 3).rest) r := by
  obtain ⟨haccum, hread⟩ := lex_integer_exact_iff 10 .zero true "decimal number" (zeros 3)
    (.inr (.inl rfl)) (ok_zeros 3)
  refine ⟨(haccum ⟨0, 1⟩ 1 2 (by decide)).trans (by decide), hread.2 ?_⟩
  rintro ⟨-, hdvd⟩
  revert hdvd
  decide

end SpacePony.Lexing
