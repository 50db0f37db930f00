import Mathlib.Data.Int.Notation
import Mathlib.Data.List.Forall2
import Mathlib.Data.List.Pairwise
import Mathlib.Tactic.Common

/-!
# Formatted output

Calls of `printf` with the conversions `%d`, `%u`, `%lu`, `%02x`, `%s` and `%f` of values that are
not negative. A `Layout` is a format with what its conversions take; where a character behind each
conversion ends it, and no format starts like another one, the text of a list of calls tells the
calls (`sameCalls_of_texts`).
-/

namespace Printf

/-- The characters that are printed. -/
abbrev Text := List Char

/-! ## Single precision -/

/-- A quotient of two numbers. -/
structure Ratio where
  num : ℕ
  den : ℕ
  deriving DecidableEq, Repr

/-- The integer next to a quotient, and the even one of two. -/
def Ratio.round (q : Ratio) : ℕ :=
  if 2 * (q.num % q.den) < q.den ∨ 2 * (q.num % q.den) = q.den ∧ q.num / q.den % 2 = 0 then
    q.num / q.den
  else q.num / q.den + 1

/-- The quotient divided by `2 ^ e`. -/
def Ratio.shift (q : Ratio) (e : ℤ) : Ratio := ⟨q.num <<< (-e).toNat, q.den <<< e.toNat⟩

/-- The largest `e` with `2 ^ e` at most the quotient. -/
def Ratio.exponent (q : Ratio) : ℤ :=
  let e : ℤ := (Nat.log2 q.num : ℤ) - Nat.log2 q.den
  if (q.shift e).den ≤ (q.shift e).num then e else e - 1

/-- The `float` next to a quotient in the range of the normal numbers: a significand of 24 bits. -/
def Ratio.float (q : Ratio) : Ratio :=
  let e := q.exponent - 23
  Ratio.shift ⟨(q.shift e).round, 1⟩ (-e)

/-- `v / d` for an integer `v` and a `float` constant `d`. -/
def floatDiv (v d : ℕ) : Ratio :=
  let q := Ratio.float ⟨v, 1⟩
  Ratio.float ⟨q.num, q.den * d⟩

/-! ## Calls -/

/-- What a conversion prints: a number in base ten, a number in base sixteen with at least two
digits, a string, or a `double` with six digits behind the point. -/
inductive Conv
  | decimal
  | hex2
  | str
  | fixed
  deriving DecidableEq, Repr

/-- A part of a format: a character that is printed, or a conversion. -/
inductive Piece
  | char (c : Char)
  | conv (k : Conv)
  deriving DecidableEq, Repr

/-- The parts of a format. -/
def pieces : Text → List Piece
  | '%' :: 'd' :: t => .conv .decimal :: pieces t
  | '%' :: 'u' :: t => .conv .decimal :: pieces t
  | '%' :: 'l' :: 'u' :: t => .conv .decimal :: pieces t
  | '%' :: '0' :: '2' :: 'x' :: t => .conv .hex2 :: pieces t
  | '%' :: 's' :: t => .conv .str :: pieces t
  | '%' :: 'f' :: t => .conv .fixed :: pieces t
  | c :: t => .char c :: pieces t
  | [] => []

/-- An argument. A string is `none` where the pointer does not point to one. -/
inductive Arg
  | num (n : ℕ)
  | str (s : Option String)
  | double (q : Ratio)
  deriving DecidableEq, Repr

/-- `%f`. -/
def fixedText (q : Ratio) : Text :=
  let millionths := Ratio.round ⟨q.num * 1000000, q.den⟩
  Nat.toDigits 10 (millionths / 1000000) ++
    '.' :: List.leftpad 6 '0' (Nat.toDigits 10 (millionths % 1000000))

/-- `%02x`. -/
def hexText (n : ℕ) : Text := List.leftpad 2 '0' (Nat.toDigits 16 n)

/-- What a conversion prints for an argument of its type. -/
def render : Conv → Arg → Option Text
  | .decimal, .num n => some (Nat.toDigits 10 n)
  | .hex2, .num n => some (hexText n)
  | .str, .str s => s.map String.toList
  | .fixed, .double q => some (fixedText q)
  | _, _ => none

/-- What is printed for the parts of a format. It is undefined where an argument is missing or has
the wrong type. -/
def printed : List Piece → List Arg → Option Text
  | [], _ => some []
  | .char c :: ps, args => (c :: ·) <$> printed ps args
  | .conv k :: ps, arg :: args => do
    let t ← render k arg
    let r ← printed ps args
    return t ++ r
  | .conv _ :: _, [] => none

/-- `printf(format, args...)`. -/
structure PrintCall where
  format : String
  args : List Arg
  deriving DecidableEq, Repr

/-- The text of a call. -/
def PrintCall.text (call : PrintCall) : Option Text := printed (pieces call.format.toList) call.args

/-- The text of the calls, one after the other. -/
def texts : List PrintCall → Option Text
  | [] => some []
  | call :: calls => do
    let t ← call.text
    let r ← texts calls
    return t ++ r

/-! ## Layouts -/

/-- A conversion with what its argument is known to be: a byte for two digits, a string without
the character that ends it. -/
inductive Field
  | decimal
  | byte
  | str (stop : Char)
  | fixed
  deriving DecidableEq, Repr

namespace Field

/-- The conversion of a field. -/
def conv : Field → Conv
  | decimal => .decimal
  | byte => .hex2
  | str _ => .str
  | fixed => .fixed

/-- The argument fits the field. -/
def Takes : Field → Arg → Prop
  | decimal, .num _ => True
  | byte, .num n => n < 256
  | str stop, .str (some s) => stop ∉ s.toList
  | fixed, .double _ => True
  | _, _ => False

/-- The character is in no text of the field. -/
def ends : Field → Char → Bool
  | decimal, c => !c.isDigit
  | byte, c => !"0123456789abcdef".toList.contains c
  | str stop, c => c == stop
  | fixed, c => !c.isDigit && c != '.'

end Field

/-- The characters before the next conversion. -/
def gap : List Piece → Text
  | .char c :: ps => c :: gap ps
  | _ => []

/-- The conversions are those of the fields, and behind each stands a character that ends it. -/
def separated : List Piece → List Field → Bool
  | [], fields => fields.isEmpty
  | .char _ :: ps, fields => separated ps fields
  | .conv k :: ps, f :: fields => f.conv = k && (gap ps).any f.ends && separated ps fields
  | .conv _ :: _, [] => false

/-- A format, its characters and its fields. -/
structure Layout where
  format : String
  text : Text
  spelled : format.toList = text
  fields : List Field
  separated : separated (pieces text) fields = true

/-- A format that is written in two parts. -/
theorem toList_append_ofList {a b : List Char} :
    (String.ofList a ++ String.ofList b).toList = a ++ b := by
  rw [String.toList_append, String.toList_ofList, String.toList_ofList]

namespace Layout

/-- The call prints with this layout. -/
def Takes (layout : Layout) (call : PrintCall) : Prop :=
  call.format = layout.format ∧ List.Forall₂ Field.Takes layout.fields call.args

/-- The characters the layout starts with. -/
def start (layout : Layout) : Text := gap (pieces layout.text)

/-- No layout starts like another one. -/
def Distinct (table : List Layout) : Prop :=
  table.Pairwise fun l l' => ¬ l.start <+: l'.start ∧ ¬ l'.start <+: l.start

instance (table : List Layout) : Decidable (Distinct table) :=
  inferInstanceAs (Decidable (List.Pairwise _ table))

end Layout

/-- The call has one of the layouts. -/
def PrintCall.Within (table : List Layout) (call : PrintCall) : Prop :=
  ∃ layout ∈ table, layout.Takes call

/-- The same argument; of two floating-point numbers nothing is said. -/
def Arg.Same : Arg → Arg → Prop
  | .double _, .double _ => True
  | a, b => a = b

/-- The same call, but for floating-point numbers. -/
def PrintCall.Same (c d : PrintCall) : Prop :=
  c.format = d.format ∧ List.Forall₂ Arg.Same c.args d.args

/-! ## Texts of arguments -/

theorem cons_append_inj_of_notMem {α : Type*} {c : α} {x y z z' : List α} (hx : c ∉ x)
    (hy : c ∉ y) (h : x ++ c :: z = y ++ c :: z') : x = y ∧ z = z' := by
  induction x generalizing y with
  | nil =>
    cases y with
    | nil => exact ⟨rfl, (List.cons.inj h).2⟩
    | cons b y => exact absurd (List.cons.inj h).1 (List.ne_of_not_mem_cons hy)
  | cons a x ih =>
    cases y with
    | nil => exact absurd (List.cons.inj h).1.symm (List.ne_of_not_mem_cons hx)
    | cons b y =>
      obtain ⟨rfl, htail⟩ := List.cons.inj h
      obtain ⟨rfl, hz⟩ := ih (List.not_mem_of_not_mem_cons hx) (List.not_mem_of_not_mem_cons hy)
        htail
      exact ⟨rfl, hz⟩

/-- A text before a gap is told by a character of the gap that it does not have. -/
theorem append_inj_of_stop {α : Type*} {c : α} {t u g r r' : List α} (ht : c ∉ t) (hu : c ∉ u)
    (hg : c ∈ g) (h : t ++ (g ++ r) = u ++ (g ++ r')) : t = u ∧ r = r' := by
  obtain ⟨p, q, rfl, hp⟩ := List.eq_append_cons_of_mem hg
  have hsplit : (t ++ p) ++ c :: (q ++ r) = (u ++ p) ++ c :: (q ++ r') := by
    simpa only [List.append_assoc, List.cons_append] using h
  obtain ⟨hpre, hpost⟩ := cons_append_inj_of_notMem
    (List.mem_append.not.mpr (not_or.mpr ⟨ht, hp⟩))
    (List.mem_append.not.mpr (not_or.mpr ⟨hu, hp⟩)) hsplit
  exact ⟨List.append_cancel_right hpre, List.append_cancel_left hpost⟩

theorem isDigit_of_mem_decimal {n : ℕ} {c : Char} (h : c ∈ Nat.toDigits 10 n) : c.isDigit = true :=
  Nat.isDigit_of_mem_toDigits (by decide) (by decide) h

theorem decimal_inj {m n : ℕ} (h : Nat.toDigits 10 m = Nat.toDigits 10 n) : m = n := by
  rw [← Nat.ofDigitChars_ten_toDigits (n := m), h, Nat.ofDigitChars_ten_toDigits]

/-- A byte has two digits. -/
theorem hexText_of_lt {n : ℕ} (h : n < 256) :
    hexText n = [(n / 16).digitChar, (n % 16).digitChar] := by
  unfold hexText
  by_cases hn : n < 16
  · rw [Nat.toDigits_of_lt_base hn, Nat.div_eq_of_lt hn, Nat.mod_eq_of_lt hn]
    rfl
  · rw [Nat.toDigits_of_base_le (by decide) (by omega),
      Nat.toDigits_of_lt_base (show n / 16 < 16 by omega)]
    rfl

theorem mem_hexDigits : ∀ d < 16, Nat.digitChar d ∈ "0123456789abcdef".toList := by decide

theorem digitChar_inj : ∀ d < 16, ∀ e < 16, Nat.digitChar d = Nat.digitChar e → d = e := by decide

theorem hexText_inj {m n : ℕ} (hm : m < 256) (hn : n < 256) (h : hexText m = hexText n) :
    m = n := by
  rw [hexText_of_lt hm, hexText_of_lt hn, List.cons.injEq, List.cons.injEq] at h
  have hdiv := digitChar_inj _ (by omega) _ (by omega) h.1
  have hmod := digitChar_inj _ (by omega) _ (by omega) h.2.1
  omega

theorem mem_fixedText {q : Ratio} {c : Char} (h : c ∈ fixedText q) :
    c.isDigit = true ∨ c = '.' := by
  unfold fixedText at h
  rw [List.mem_append, List.mem_cons, List.leftpad, List.mem_append] at h
  rcases h with h | h | h | h
  · exact Or.inl (isDigit_of_mem_decimal h)
  · exact Or.inr h
  · rw [List.eq_of_mem_replicate h]
    exact Or.inl rfl
  · exact Or.inl (isDigit_of_mem_decimal h)

/-- What fits a field is printed. -/
theorem exists_render {f : Field} {a : Arg} (h : f.Takes a) : ∃ t, render f.conv a = some t := by
  cases f <;> cases a <;> first | exact h.elim | skip
  · exact ⟨_, rfl⟩
  · exact ⟨_, rfl⟩
  · rename_i s
    cases s with
    | none => exact h.elim
    | some t => exact ⟨t.toList, rfl⟩
  · exact ⟨_, rfl⟩

/-- A character that ends the field is not printed in it. -/
theorem notMem_of_ends {f : Field} {a : Arg} {t : Text} {c : Char} (h : f.Takes a)
    (ht : render f.conv a = some t) (hc : f.ends c = true) : c ∉ t := by
  intro hmem
  cases f <;> cases a <;> first | exact h.elim | skip
  · obtain rfl := Option.some.inj ht
    simp [Field.ends, isDigit_of_mem_decimal hmem] at hc
  · obtain rfl := Option.some.inj ht
    rename_i n
    rw [hexText_of_lt h, List.mem_pair] at hmem
    have hn : n < 256 := h
    have hin : c ∈ "0123456789abcdef".toList := by
      rcases hmem with rfl | rfl
      · exact mem_hexDigits _ (by omega)
      · exact mem_hexDigits _ (by omega)
    rw [Field.ends, List.contains_eq_mem, decide_eq_true hin] at hc
    cases hc
  · rename_i s
    cases s with
    | none => exact h.elim
    | some s =>
      obtain rfl := Option.some.inj ht
      obtain rfl := beq_iff_eq.mp hc
      exact h hmem
  · obtain rfl := Option.some.inj ht
    rcases mem_fixedText hmem with hdigit | rfl
    · simp [Field.ends, hdigit] at hc
    · simp [Field.ends] at hc

/-- The text of a field tells its argument. -/
theorem same_of_render {f : Field} {a b : Arg} (ha : f.Takes a) (hb : f.Takes b)
    (h : render f.conv a = render f.conv b) : a.Same b := by
  cases f <;> cases a <;> first | exact ha.elim | skip
  all_goals cases b <;> first | exact hb.elim | skip
  · exact congrArg Arg.num (decimal_inj (Option.some.inj h))
  · exact congrArg Arg.num (hexText_inj ha hb (Option.some.inj h))
  · exact congrArg Arg.str (Option.map_injective (fun _ _ => String.toList_inj.mp) h)
  · trivial

/-! ## Texts of formats -/

/-- The text starts with the characters before the first conversion. -/
theorem printed_eq_gap {ps : List Piece} {args : List Arg} {t : Text}
    (h : printed ps args = some t) : ∃ u, t = gap ps ++ u := by
  induction ps generalizing t with
  | nil => exact ⟨t, rfl⟩
  | cons p ps ih =>
    cases p with
    | conv k => exact ⟨t, rfl⟩
    | char c =>
      obtain ⟨u, hu, rfl⟩ := Option.map_eq_some_iff.mp h
      obtain ⟨v, rfl⟩ := ih hu
      exact ⟨v, rfl⟩

theorem printed_conv {k : Conv} {ps : List Piece} {a : Arg} {args : List Arg} {t : Text}
    (h : printed (.conv k :: ps) (a :: args) = some t) :
    ∃ u v, render k a = some u ∧ printed ps args = some v ∧ t = u ++ v := by
  obtain ⟨u, hu, h⟩ := Option.bind_eq_some_iff.mp h
  obtain ⟨v, hv, h⟩ := Option.bind_eq_some_iff.mp h
  exact ⟨u, v, hu, hv, (Option.some.inj h).symm⟩

theorem exists_printed {ps : List Piece} {fields : List Field} {args : List Arg}
    (hs : separated ps fields = true) (ha : List.Forall₂ Field.Takes fields args) :
    ∃ t, printed ps args = some t := by
  induction ps generalizing fields args with
  | nil => exact ⟨[], rfl⟩
  | cons p ps ih =>
    cases p with
    | char c =>
      obtain ⟨t, ht⟩ := ih hs ha
      exact ⟨c :: t, congrArg (Option.map (c :: ·)) ht⟩
    | conv k =>
      cases ha with
      | nil => cases hs
      | cons ha has =>
        rw [separated, Bool.and_eq_true, Bool.and_eq_true, decide_eq_true_eq] at hs
        obtain ⟨⟨rfl, -⟩, hs⟩ := hs
        obtain ⟨u, hu⟩ := exists_render ha
        obtain ⟨v, hv⟩ := ih hs has
        exact ⟨u ++ v, by rw [printed, hu, hv]; rfl⟩

/-- The text of a format tells the arguments and where it ends. -/
theorem same_of_printed {ps : List Piece} {fields : List Field} {as bs : List Arg} {t u r r' : Text}
    (hs : separated ps fields = true) (ha : List.Forall₂ Field.Takes fields as)
    (hb : List.Forall₂ Field.Takes fields bs) (ht : printed ps as = some t)
    (hu : printed ps bs = some u) (h : t ++ r = u ++ r') :
    List.Forall₂ Arg.Same as bs ∧ r = r' := by
  induction ps generalizing fields as bs t u with
  | nil =>
    cases fields with
    | cons f fields => cases hs
    | nil =>
      cases ha
      cases hb
      cases ht
      cases hu
      exact ⟨.nil, h⟩
  | cons p ps ih =>
    cases p with
    | char c =>
      obtain ⟨t', ht', rfl⟩ := Option.map_eq_some_iff.mp ht
      obtain ⟨u', hu', rfl⟩ := Option.map_eq_some_iff.mp hu
      exact ih hs ha hb ht' hu' (List.cons.inj h).2
    | conv k =>
      cases ha with
      | nil => cases hs
      | cons ha has =>
        cases hb with
        | cons hb hbs =>
          rw [separated, Bool.and_eq_true, Bool.and_eq_true, decide_eq_true_eq,
            List.any_eq_true] at hs
          obtain ⟨⟨rfl, c, hgap, hends⟩, hs⟩ := hs
          obtain ⟨ta, tas, hta, htas, rfl⟩ := printed_conv ht
          obtain ⟨ub, ubs, hub, hubs, rfl⟩ := printed_conv hu
          obtain ⟨x, rfl⟩ := printed_eq_gap htas
          obtain ⟨y, rfl⟩ := printed_eq_gap hubs
          simp only [List.append_assoc] at h
          obtain ⟨rfl, hrest⟩ := append_inj_of_stop (notMem_of_ends ha hta hends)
            (notMem_of_ends hb hub hends) hgap h
          obtain ⟨hargs, hr⟩ := ih hs has hbs htas hubs (by simp only [List.append_assoc, hrest])
          exact ⟨.cons (same_of_render ha hb (hta.trans hub.symm)) hargs, hr⟩

/-! ## Texts of calls -/

theorem exists_text {table : List Layout} {call : PrintCall} (h : call.Within table) :
    ∃ t, call.text = some t := by
  obtain ⟨layout, -, hformat, hargs⟩ := h
  unfold PrintCall.text
  rw [hformat, layout.spelled]
  exact exists_printed layout.separated hargs

/-- Calls that have a layout are printed. -/
theorem exists_texts {table : List Layout} {calls : List PrintCall}
    (h : ∀ call ∈ calls, call.Within table) : ∃ t, texts calls = some t := by
  induction calls with
  | nil => exact ⟨[], rfl⟩
  | cons call calls ih =>
    obtain ⟨t, ht⟩ := exists_text (h call List.mem_cons_self)
    obtain ⟨r, hr⟩ := ih fun d hd => h d (List.mem_cons_of_mem _ hd)
    exact ⟨t ++ r, by rw [texts, ht, hr]; rfl⟩

/-- A layout is told by how a text starts. -/
theorem layout_eq_of_start {table : List Layout} (hdistinct : Layout.Distinct table)
    {l l' : Layout} (hl : l ∈ table) (hl' : l' ∈ table) {t : Text} (h : l.start <+: t)
    (h' : l'.start <+: t) : l = l' := by
  by_contra hne
  have hsymm : Std.Symm fun l l' : Layout => ¬ l.start <+: l'.start ∧ ¬ l'.start <+: l.start :=
    ⟨fun _ _ h => ⟨h.2, h.1⟩⟩
  have happart := hdistinct.forall hl hl' hne
  rcases List.prefix_or_prefix_of_prefix h h' with hp | hp
  · exact happart.1 hp
  · exact happart.2 hp

theorem text_eq_start {layout : Layout} {call : PrintCall} {t : Text} (h : layout.Takes call)
    (ht : call.text = some t) (r : Text) : layout.start <+: t ++ r := by
  unfold PrintCall.text at ht
  rw [h.1, layout.spelled] at ht
  obtain ⟨u, rfl⟩ := printed_eq_gap ht
  exact ⟨u ++ r, (List.append_assoc ..).symm⟩

theorem texts_cons {call : PrintCall} {calls : List PrintCall} {t : Text}
    (h : texts (call :: calls) = some t) :
    ∃ u v, call.text = some u ∧ texts calls = some v ∧ t = u ++ v := by
  obtain ⟨u, hu, h⟩ := Option.bind_eq_some_iff.mp h
  obtain ⟨v, hv, h⟩ := Option.bind_eq_some_iff.mp h
  exact ⟨u, v, hu, hv, (Option.some.inj h).symm⟩

/-- What is printed behind a call is not empty where no layout starts with a conversion. -/
theorem text_ne_nil {layout : Layout} {call : PrintCall} {t : Text} (hne : layout.start ≠ [])
    (h : layout.Takes call) (ht : call.text = some t) : t ≠ [] := by
  rintro rfl
  exact hne (List.prefix_nil.mp (text_eq_start h ht []))

/-- Calls of distinct layouts are told by their text. -/
theorem sameCalls_of_texts {table : List Layout} (hdistinct : Layout.Distinct table)
    (hne : ∀ layout ∈ table, layout.start ≠ []) {cs ds : List PrintCall}
    (hc : ∀ c ∈ cs, c.Within table) (hd : ∀ d ∈ ds, d.Within table) {t : Text}
    (ht : texts cs = some t) (hu : texts ds = some t) : List.Forall₂ PrintCall.Same cs ds := by
  induction cs generalizing ds t with
  | nil =>
    cases ds with
    | nil => exact .nil
    | cons d ds =>
      obtain ⟨u, v, hud, -, rfl⟩ := texts_cons hu
      obtain ⟨layout, hl, htakes⟩ := hd d List.mem_cons_self
      have hnil := List.append_eq_nil_iff.mp (Option.some.inj ht).symm
      exact absurd hnil.1 (text_ne_nil (hne layout hl) htakes hud)
  | cons c cs ih =>
    obtain ⟨x, y, hx, hy, rfl⟩ := texts_cons ht
    obtain ⟨layout, hl, htakes⟩ := hc c List.mem_cons_self
    cases ds with
    | nil =>
      have hnil := List.append_eq_nil_iff.mp (Option.some.inj hu).symm
      exact absurd hnil.1 (text_ne_nil (hne layout hl) htakes hx)
    | cons d ds =>
      obtain ⟨u, v, hud, hv, huv⟩ := texts_cons hu
      obtain ⟨layout', hl', htakes'⟩ := hd d List.mem_cons_self
      obtain rfl := layout_eq_of_start hdistinct hl hl' (text_eq_start htakes hx y)
        (huv ▸ text_eq_start htakes' hud v)
      unfold PrintCall.text at hx hud
      rw [htakes.1, layout.spelled] at hx
      rw [htakes'.1, layout.spelled] at hud
      obtain ⟨hargs, rfl⟩ := same_of_printed layout.separated htakes.2 htakes'.2 hx hud huv
      exact .cons ⟨htakes.1.trans htakes'.1.symm, hargs⟩
        (ih (fun e he => hc e (List.mem_cons_of_mem _ he))
          (fun e he => hd e (List.mem_cons_of_mem _ he)) hy hv)

end Printf
