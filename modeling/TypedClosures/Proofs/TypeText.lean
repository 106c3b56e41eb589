import TypedClosures.Proofs.Faults
import Mathlib.Data.String.Basic

/-!
# The text of a type can be read

A type is written with arrows to the right and with parentheses around an argument that is
an arrow itself, and nowhere else. As long as the names of base types hold no blank and no
parenthesis (`Ty.Plain`; the empty name is allowed), that text determines the type:
`Ty.read?` reads it back, and reads nothing but what `Ty.text` writes.

In a run where all types are plain the two types of a mismatch are therefore written
differently (`plain_types_readable`).
-/

namespace TypedClosures

-- ---------------------------------------------------------------------------
-- Names in a text
-- ---------------------------------------------------------------------------

def separators : List Char := [' ', '(', ')']

def Name.Plain (x : Name) : Prop := ∀ c ∈ x.toList, c ∉ separators

-- Not by inference: in a larger library that would run through all characters.
instance (x : Name) : Decidable (Name.Plain x) :=
  List.decidableBAll (fun c => c ∉ separators) x.toList

def splitName (cs : List Char) : Name × List Char :=
  (String.ofList (cs.takeWhile (· ∉ separators)), cs.dropWhile (· ∉ separators))

/-- The text goes on with one of these characters, or it is at its end. -/
def GoesOn (signs rest : List Char) : Prop := ∀ c ∈ rest.head?, c ∈ signs

section
variable {signs rest rest' : List Char} {c : Char} {x y : Name}

theorem goesOn_nil (signs : List Char) : GoesOn signs [] := by
  rintro c ⟨⟩

theorem goesOn_cons (hc : c ∈ signs) (rest : List Char) : GoesOn signs (c :: rest) := by
  rintro c ⟨⟩
  exact hc

theorem GoesOn.mono {signs' : List Char} (h : GoesOn signs rest) (hsigns : signs ⊆ signs') :
    GoesOn signs' rest :=
  fun c hc => hsigns (h c hc)

theorem GoesOn.head?_ne (h : GoesOn signs rest) (hc : c ∉ signs) : rest.head? ≠ some c :=
  fun hhead => hc (h c hhead)

theorem splitName_append (hx : Name.Plain x) (hrest : GoesOn separators rest) :
    splitName (x.toList ++ rest) = (x, rest) := by
  have hname : ∀ c ∈ x.toList, decide (c ∉ separators) = true :=
    fun c hc => decide_eq_true (hx c hc)
  have hstop : rest.takeWhile (· ∉ separators) = [] ∧ rest.dropWhile (· ∉ separators) = rest := by
    cases rest with
    | nil => exact ⟨rfl, rfl⟩
    | cons c rest =>
      have hc : c ∈ separators := hrest c rfl
      simp [hc]
  rw [splitName, List.takeWhile_append_of_pos hname, List.dropWhile_append_of_pos hname, hstop.1,
    hstop.2, List.append_nil, String.ofList_toList]

theorem Name.append_inj (hx : Name.Plain x) (hy : Name.Plain y) (hrest : GoesOn separators rest)
    (hrest' : GoesOn separators rest') (h : x.toList ++ rest = y.toList ++ rest') :
    x = y ∧ rest = rest' := by
  have hsplit := splitName_append hx hrest
  rw [h, splitName_append hy hrest'] at hsplit
  exact Prod.mk.inj hsplit.symm

theorem eq_of_splitName {cs : List Char} (h : splitName cs = (x, rest)) :
    Name.Plain x ∧ cs = x.toList ++ rest := by
  obtain ⟨rfl, rfl⟩ := Prod.mk.inj h
  refine ⟨?_, ?_⟩
  · intro c hc
    rw [String.toList_ofList] at hc
    exact of_decide_eq_true (List.all_eq_true.mp List.all_takeWhile c hc)
  · rw [String.toList_ofList, List.takeWhile_append_dropWhile]

theorem head?_ne_of_plain (hx : Name.Plain x) (hc : c ∈ separators) (hrest : rest.head? ≠ some c) :
    (x.toList ++ rest).head? ≠ some c := by
  cases h : x.toList with
  | nil => exact hrest
  | cons d cs =>
    have hd : d ∉ separators := hx d (by simp [h])
    rintro ⟨⟩
    exact hd hc

end

theorem dropPrefix?_append_self (p rest : List Char) : (p ++ rest).dropPrefix? p = some rest :=
  List.dropPrefix?_eq_some_iff.mpr ⟨p, rfl, beq_self_eq_true p⟩

theorem eq_of_dropPrefix? {cs p rest : List Char} (h : cs.dropPrefix? p = some rest) :
    cs = p ++ rest := by
  obtain ⟨p', rfl, hp⟩ := List.dropPrefix?_eq_some_iff.mp h
  rw [eq_of_beq hp]

namespace Ty

-- ---------------------------------------------------------------------------
-- Reading a type
-- ---------------------------------------------------------------------------

def names : Ty → List Name
  | .base x => [x]
  | .arrow argument result => argument.names ++ result.names

def Plain (τ : Ty) : Prop := ∀ x ∈ τ.names, Name.Plain x

instance (τ : Ty) : Decidable τ.Plain :=
  inferInstanceAs (Decidable (∀ x ∈ τ.names, Name.Plain x))

theorem plain_base {x : Name} : (Ty.base x).Plain ↔ Name.Plain x := List.forall_mem_singleton

theorem plain_arrow {σ τ : Ty} : (Ty.arrow σ τ).Plain ↔ σ.Plain ∧ τ.Plain :=
  List.forall_mem_append

/-- Reads a type at the start of a text, with at most `n - 1` arrows one inside the other,
and gives what comes after it. Only an arrow may stand in parentheses. -/
def readFrom : Nat → List Char → Option (Ty × List Char)
  | 0, _ => none
  | n + 1, '(' :: cs => do
    let (argument, cs) ← readFrom n cs
    let cs ← cs.dropPrefix? ") -> ".toList
    let (result, cs) ← readFrom n cs
    if argument.isArrow then some (.arrow argument result, cs) else none
  | n + 1, cs =>
    let (x, cs) := splitName cs
    match cs.dropPrefix? " -> ".toList with
    | some cs => do
      let (result, cs) ← readFrom n cs
      some (.arrow (.base x) result, cs)
    | none => some (.base x, cs)

/-- The type that a text is of. An arrow takes four characters, so the length bounds
their number. -/
def read? (s : String) : Option Ty :=
  match readFrom (s.length + 1) s.toList with
  | some (τ, []) => some τ
  | _ => none

theorem readFrom_name {n : Nat} {cs : List Char} (h : cs.head? ≠ some '(') :
    readFrom (n + 1) cs =
      match (splitName cs).2.dropPrefix? " -> ".toList with
      | some rest => do
        let (result, rest) ← readFrom n rest
        some (.arrow (.base (splitName cs).1) result, rest)
      | none => some (.base (splitName cs).1, (splitName cs).2) := by
  rw [readFrom]
  rintro cs' rfl
  exact h rfl

def arrows : Ty → Nat
  | .base _ => 0
  | .arrow argument result => argument.arrows + result.arrows + 1

theorem arrows_le_length (τ : Ty) : τ.arrows ≤ τ.text.length := by
  induction τ with
  | base x => exact Nat.zero_le _
  | arrow σ τ ihσ ihτ =>
    have : " -> ".length = 4 := rfl
    by_cases hσ : σ.isArrow
    · simp only [arrows, text, hσ, if_true, String.length_append]
      omega
    · simp only [arrows, text, hσ, Bool.false_eq_true, if_false, String.length_append]
      omega

theorem toList_text_base (x : Name) (τ : Ty) (rest : List Char) :
    (Ty.arrow (.base x) τ).text.toList ++ rest =
      x.toList ++ (" -> ".toList ++ (τ.text.toList ++ rest)) := by
  simp only [text, isArrow, String.toList_append, Bool.false_eq_true, if_false, List.append_assoc]

theorem toList_text_arrow {σ : Ty} (hσ : σ.isArrow) (τ : Ty) (rest : List Char) :
    (Ty.arrow σ τ).text.toList ++ rest =
      '(' :: (σ.text.toList ++ (") -> ".toList ++ (τ.text.toList ++ rest))) := by
  simp only [text, hσ, if_true, String.toList_append, List.append_assoc]
  rfl

/-- Reading gives a type that was written, and leaves what follows. After a type there is
the parenthesis around it, or nothing. -/
theorem readFrom_text {τ : Ty} (hτ : τ.Plain) {n : Nat} (hn : τ.arrows < n) {rest : List Char}
    (hrest : GoesOn [')'] rest) : readFrom n (τ.text.toList ++ rest) = some (τ, rest) := by
  induction τ generalizing n rest with
  | base x =>
    obtain ⟨n, rfl⟩ := Nat.exists_eq_add_one_of_ne_zero (Nat.ne_zero_of_lt hn)
    have hx := plain_base.mp hτ
    have hhead : rest.head? ≠ some '(' := hrest.head?_ne (by decide)
    have harrow : rest.dropPrefix? " -> ".toList = none := by
      cases rest with
      | nil => rfl
      | cons c rest =>
        obtain rfl : c = ')' := List.mem_singleton.mp (hrest c rfl)
        rfl
    rw [text, readFrom_name (head?_ne_of_plain hx (by decide) hhead),
      splitName_append hx (hrest.mono (by decide)), harrow]
  | arrow σ τ ihσ ihτ =>
    obtain ⟨n, rfl⟩ := Nat.exists_eq_add_one_of_ne_zero (Nat.ne_zero_of_lt hn)
    obtain ⟨hσ, hτ⟩ := plain_arrow.mp hτ
    rw [arrows] at hn
    have hread : readFrom n (τ.text.toList ++ rest) = some (τ, rest) :=
      ihτ hτ (by omega) hrest
    cases σ with
    | base x =>
      have hx := plain_base.mp hσ
      have hends : GoesOn separators (" -> ".toList ++ (τ.text.toList ++ rest)) :=
        goesOn_cons (by decide) _
      rw [toList_text_base, readFrom_name (head?_ne_of_plain hx (by decide) (by simp)),
        splitName_append hx hends]
      simp only [dropPrefix?_append_self, hread, Option.bind_eq_bind, Option.bind_some]
    | arrow a b =>
      have hclose : GoesOn [')'] (") -> ".toList ++ (τ.text.toList ++ rest)) :=
        goesOn_cons (by decide) _
      rw [toList_text_arrow rfl, readFrom, ihσ hσ (by omega) hclose]
      simp only [dropPrefix?_append_self, hread, isArrow, if_true, Option.bind_eq_bind,
        Option.bind_some]

theorem eq_of_readFrom {n : Nat} {cs rest : List Char} {τ : Ty}
    (h : readFrom n cs = some (τ, rest)) : τ.Plain ∧ cs = τ.text.toList ++ rest := by
  induction n generalizing cs τ rest with
  | zero => cases h
  | succ n ih =>
    -- No name begins with a parenthesis, so the first character says which branch it was.
    by_cases hcs : cs.head? = some '('
    · obtain ⟨cs, rfl⟩ : ∃ tail, cs = '(' :: tail := by
        cases cs with
        | nil => cases hcs
        | cons c cs => exact ⟨cs, by rw [Option.some.inj hcs]⟩
      simp only [readFrom, Option.bind_eq_bind, Option.bind_eq_some_iff] at h
      obtain ⟨⟨σ, cs₁⟩, hσ, cs₂, hcs₂, ⟨τ', cs₃⟩, hτ', h⟩ := h
      obtain ⟨hσplain, rfl⟩ := ih hσ
      obtain rfl := eq_of_dropPrefix? hcs₂
      obtain ⟨hτplain, rfl⟩ := ih hτ'
      by_cases harrow : σ.isArrow
      · rw [if_pos harrow] at h
        cases h
        exact ⟨plain_arrow.mpr ⟨hσplain, hτplain⟩, (toList_text_arrow harrow _ _).symm⟩
      · rw [if_neg harrow] at h
        cases h
    · rw [readFrom_name hcs] at h
      rcases hx : splitName cs with ⟨x, cs₁⟩
      obtain ⟨hxplain, rfl⟩ := eq_of_splitName hx
      simp only [hx] at h
      split at h
      · next cs₂ hcs₂ =>
        obtain rfl := eq_of_dropPrefix? hcs₂
        simp only [Option.bind_eq_bind, Option.bind_eq_some_iff] at h
        obtain ⟨⟨τ', cs₃⟩, hτ', h⟩ := h
        obtain ⟨hτplain, rfl⟩ := ih hτ'
        cases h
        exact ⟨plain_arrow.mpr ⟨plain_base.mpr hxplain, hτplain⟩, (toList_text_base _ _ _).symm⟩
      · cases h
        exact ⟨plain_base.mpr hxplain, rfl⟩

theorem read?_eq_some_iff {s : String} {τ : Ty} :
    read? s = some τ ↔ τ.Plain ∧ τ.text = s := by
  constructor
  · intro h
    rw [read?] at h
    split at h
    · next σ hread =>
      obtain rfl := Option.some.inj h
      obtain ⟨hplain, hs⟩ := eq_of_readFrom hread
      rw [List.append_nil] at hs
      exact ⟨hplain, String.toList_inj.mp hs.symm⟩
    · cases h
  · rintro ⟨hplain, rfl⟩
    have hread := readFrom_text hplain (Nat.lt_succ_of_le τ.arrows_le_length) (goesOn_nil _)
    rw [List.append_nil] at hread
    rw [read?, hread]

theorem text_inj {σ τ : Ty} (hσ : σ.Plain) (hτ : τ.Plain) : σ.text = τ.text ↔ σ = τ := by
  constructor
  · intro h
    have hread : read? σ.text = some τ := read?_eq_some_iff.mpr ⟨hτ, h.symm⟩
    rw [read?_eq_some_iff.mpr ⟨hσ, rfl⟩] at hread
    exact Option.some.inj hread
  · rintro rfl
    rfl

-- A base type may have the name of an arrow's text.
example : (Ty.base "A -> B").text = (Ty.arrow (.base "A") (.base "B")).text := by decide

theorem text_append_inj {σ τ : Ty} (hσ : σ.Plain) (hτ : τ.Plain) {rest rest' : List Char}
    (hrest : GoesOn [')'] rest) (hrest' : GoesOn [')'] rest')
    (h : σ.text.toList ++ rest = τ.text.toList ++ rest') : σ = τ ∧ rest = rest' := by
  have hleft := readFrom_text hσ (Nat.lt_succ_of_le (Nat.le_add_right σ.arrows τ.arrows)) hrest
  have hright := readFrom_text hτ (Nat.lt_succ_of_le (Nat.le_add_left τ.arrows σ.arrows)) hrest'
  rw [h, hright] at hleft
  exact Prod.mk.inj (Option.some.inj hleft.symm)

theorem plain_curried {σs : List Ty} {τ : Ty} :
    (curried σs τ).Plain ↔ (∀ σ ∈ σs, σ.Plain) ∧ τ.Plain := by
  induction σs with
  | nil => simp
  | cons σ σs ih => rw [curried_cons, plain_arrow, ih, List.forall_mem_cons, and_assoc]

end Ty

-- ---------------------------------------------------------------------------
-- Types in a run
-- ---------------------------------------------------------------------------

namespace Term

mutual

def annotations : Term → List Ty
  | .var .. => []
  | .cond _ c a b => c.annotations ++ a.annotations ++ b.annotations
  | .app _ f xs => f.annotations ++ annotationsList xs
  | .lam _ ps b => ps.map Binding.ty ++ b.annotations

def annotationsList : List Term → List Ty
  | [] => []
  | t :: ts => t.annotations ++ annotationsList ts

end

theorem annotationsList_eq (ts : List Term) : annotationsList ts = ts.flatMap annotations := by
  induction ts with
  | nil => rfl
  | cons t ts ih => rw [annotationsList, ih, List.flatMap_cons]

end Term

/-- All types that a run begins with are plain: those of the scope and of the annotations,
and the wanted one. -/
structure PlainTypes (Γ : Scope) (t : Term) (want : Option Ty) : Prop where
  scope : ∀ b ∈ Γ, b.ty.Plain
  annotations : ∀ τ ∈ t.annotations, τ.Plain
  want : ∀ τ ∈ want, τ.Plain

theorem plain_extendAll {Γ : Scope} {ps : List Binding} (hΓ : ∀ b ∈ Γ, b.ty.Plain)
    (hps : ∀ τ ∈ ps.map Binding.ty, τ.Plain) : ∀ b ∈ Γ.extendAll ps, b.ty.Plain := by
  intro b hb
  rw [Scope.extendAll_eq, List.mem_append, List.mem_reverse] at hb
  obtain hb | hb := hb
  · exact hps b.ty (List.mem_map_of_mem hb)
  · exact hΓ b hb

theorem HasType.plain {Γ : Scope} {t : Term} {τ : Ty} (h : HasType Γ t τ)
    (hΓ : ∀ b ∈ Γ, b.ty.Plain) (ht : ∀ σ ∈ t.annotations, σ.Plain) : τ.Plain := by
  induction h with
  | var hx =>
    obtain ⟨inner, outer, rfl, -⟩ := hx
    exact hΓ _ (List.mem_append_right inner List.mem_cons_self)
  | cond _ _ _ _ iha _ =>
    rw [Term.annotations, List.forall_mem_append, List.forall_mem_append] at ht
    exact iha hΓ ht.1.2
  | app _ _ _ ihf _ =>
    rw [Term.annotations, List.forall_mem_append] at ht
    exact (Ty.plain_curried.mp (ihf hΓ ht.1)).2
  | lam _ _ ih =>
    rw [Term.annotations, List.forall_mem_append] at ht
    exact Ty.plain_curried.mpr ⟨ht.1, ih (plain_extendAll hΓ ht.1) ht.2⟩

theorem Occurs.plainTypes {Δ Γ : Scope} {s t : Term} {demand want : Option Ty}
    (h : Occurs Δ s demand Γ t want) (hplain : PlainTypes Γ t want) : PlainTypes Δ s demand := by
  induction h with
  | here => exact hplain
  | test _ ih =>
    obtain ⟨hΓ, ht, -⟩ := hplain
    rw [Term.annotations, List.forall_mem_append, List.forall_mem_append] at ht
    refine ih ⟨hΓ, ht.1.1, ?_⟩
    rintro τ ⟨⟩
    decide
  | yes _ ih =>
    obtain ⟨hΓ, ht, hwant⟩ := hplain
    rw [Term.annotations, List.forall_mem_append, List.forall_mem_append] at ht
    exact ih ⟨hΓ, ht.1.2, hwant⟩
  | no ha _ ih =>
    obtain ⟨hΓ, ht, -⟩ := hplain
    rw [Term.annotations, List.forall_mem_append, List.forall_mem_append] at ht
    refine ih ⟨hΓ, ht.2, ?_⟩
    rintro τ ⟨⟩
    exact ha.plain hΓ ht.1.2
  | operator _ ih =>
    obtain ⟨hΓ, ht, -⟩ := hplain
    rw [Term.annotations, List.forall_mem_append] at ht
    exact ih ⟨hΓ, ht.1, by simp⟩
  | operand hf _ _ ih =>
    obtain ⟨hΓ, ht, -⟩ := hplain
    rw [Term.annotations, List.forall_mem_append, Term.annotationsList_eq] at ht
    have hcurried := (Ty.plain_curried.mp (hf.plain hΓ ht.1)).2
    refine ih ⟨hΓ, ?_, ?_⟩
    · intro τ hτ
      exact ht.2 τ (List.mem_flatMap.mpr ⟨_, by simp, hτ⟩)
    · rintro τ ⟨⟩
      exact (Ty.plain_arrow.mp hcurried).1
  | body _ ih =>
    obtain ⟨hΓ, ht, hwant⟩ := hplain
    rw [Term.annotations, List.forall_mem_append] at ht
    refine ih ⟨plain_extendAll hΓ ht.1, ht.2, ?_⟩
    intro τ hτ
    obtain ⟨ρ, hρ, hresult⟩ := Option.bind_eq_some_iff.mp hτ
    obtain rfl := Ty.resultAfter?_eq_some_iff.mp hresult
    exact (Ty.plain_curried.mp (hwant _ hρ)).2

theorem Check.plain_of_typeMismatch {Γ : Scope} {t : Term} {want : Option Ty} {span : Span}
    {actual expected : Ty} (hplain : PlainTypes Γ t want)
    (h : answer Γ t want = .error ⟨.typeMismatch actual expected, span⟩) :
    actual.Plain ∧ expected.Plain ∧ actual ≠ expected := by
  obtain ⟨Δ, s, demand, hs, htrue⟩ := truthful t Γ want _ h
  obtain ⟨hΔ, hannotations, hdemand⟩ := hs.plainTypes hplain
  cases htrue with
  | typeMismatch hw hne =>
    exact ⟨(elaborates_of_answer hw).hasType.plain hΔ hannotations, hdemand _ rfl, hne⟩

theorem Cause.message_typeMismatch (actual expected : Ty) :
    (Cause.typeMismatch actual expected).message =
      "type mismatch: expected `" ++ expected.text ++ "`, found `" ++ actual.text ++ "`" := by
  have hmessage : (Cause.typeMismatch actual expected).message =
      "type mismatch: expected " ++ ("`" ++ expected.text ++ "`") ++ ", found " ++
        ("`" ++ actual.text ++ "`") := rfl
  rw [hmessage, ← String.toList_inj]
  simp only [String.toList_append]
  simp

/-- Plain types that are written alike are equal, and reading accepts exactly what writing
a plain type gives. So where all types are plain, the message of a mismatch shows two
different texts. -/
theorem plain_types_readable :
    (∀ σ τ : Ty, σ.Plain → τ.Plain → (σ.text = τ.text ↔ σ = τ)) ∧
    (∀ (s : String) (τ : Ty), Ty.read? s = some τ ↔ τ.Plain ∧ τ.text = s) ∧
    ∀ (Γ : Scope) (t : Term) (want : Option Ty) (actual expected : Ty) (span : Span),
      PlainTypes Γ t want →
      (Check.elaborate Γ t want).outcome = .error ⟨.typeMismatch actual expected, span⟩ →
      Fault.message ⟨.typeMismatch actual expected, span⟩ =
          "type mismatch: expected `" ++ expected.text ++ "`, found `" ++ actual.text ++ "`" ∧
        expected.text ≠ actual.text := by
  refine ⟨?_, fun s τ => Ty.read?_eq_some_iff, ?_⟩
  · intro σ τ hσ hτ
    exact Ty.text_inj hσ hτ
  · intro Γ t want actual expected span hplain h
    obtain ⟨hactual, hexpected, hne⟩ := Check.plain_of_typeMismatch hplain h
    refine ⟨Cause.message_typeMismatch actual expected, ?_⟩
    intro htext
    exact hne ((Ty.text_inj hexpected hactual).mp htext).symm

theorem plain_types_readable_emptyName :
    let argument : Ty := .arrow (.base "") (.base "")
    let Γ : Scope := [⟨"f", .arrow argument (.base "")⟩, ⟨"x", .base ""⟩]
    let t : Term := .app ⟨0, 3⟩ (.var ⟨0, 1⟩ "f") [.var ⟨2, 3⟩ "x"]
    Ty.read? "( -> ) -> " = some (.arrow argument (.base "")) ∧ PlainTypes Γ t none ∧
      (Check.elaborate Γ t none).outcome = .error ⟨.typeMismatch (.base "") argument, ⟨2, 3⟩⟩ ∧
      argument.text ≠ (Ty.base "").text ∧ (Ty.arrow argument argument).text ≠ argument.text := by
  intro argument Γ t
  obtain ⟨hinj, hread, hrun⟩ := plain_types_readable
  have hargument : argument.Plain := by decide
  have hplain : PlainTypes Γ t none := ⟨by decide, by decide, by simp⟩
  have hfault : (Check.elaborate Γ t none).outcome =
      .error ⟨.typeMismatch (.base "") argument, ⟨2, 3⟩⟩ := by
    rw [Check.elaborate_eq_derive]
    rfl
  have hne : Ty.arrow argument argument ≠ argument := by decide
  refine ⟨(hread _ _).mpr ⟨by decide, by decide⟩, hplain, hfault, ?_, ?_⟩
  · exact (hrun Γ t none _ _ _ hplain hfault).2
  · exact fun h => hne ((hinj _ _ (by decide) hargument).mp h)

end TypedClosures
