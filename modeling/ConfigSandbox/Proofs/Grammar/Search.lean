import ConfigSandbox.Proofs.Grammar.Gives

/-!
# Every search ends

The fuel of a search goes down by one where one expression is entered inside another, and between two
characters read only so many can be: no rule comes back to itself at the same position. That is told by a
weight for each rule, and found by computation. So each expression has exactly one outcome at each
position, and the search finds it.
-/
namespace ConfigSandbox

/-- Whether a match of the rule is certain to read something. -/
def Rule.consumes : Rule → Bool
  | .module | .endOfInput | .stringContent _ => false
  | _ => true

/-- A bound on how many expressions are entered inside the rule before the first character is read. -/
def Rule.weight : Rule → Nat
  | .module => 400
  | .assignment | .augmentedAssignment | .annotatedAssignment | .expressionStatement | .slice => 350
  | .targetList | .slicePart _ | .dictItem => 300
  | .conditional => 250
  | .operation | .comprehensionTarget => 200
  | .word _ | .identifier | .stringPrefix | .stringContent _ | .reservedWord => 50
  | .stringLiteral => 70
  | _ => 100

theorem Cursor.length_of_text? {same : Char → Char → Bool} {cs : List Char} {cur last : Cursor}
    (h : cur.text? same cs = some last) : cur.rest.length = cs.length + last.rest.length := by
  induction cs generalizing cur with
  | nil =>
    cases h
    exact (Nat.zero_add _).symm
  | cons c cs ih =>
    rw [text?] at h
    split at h
    · rename_i next hnext
      obtain ⟨r, -, hrest, -⟩ := reads_of_one? hnext
      rw [hrest, List.length_cons, List.length_cons, ih h]
      omega
    · cases h

namespace Peg

/-- Whether a match of the expression is certain to read something. -/
def consumes : Peg → Bool
  | .text (_ :: _) | .textAnyCase (_ :: _) | .one _ => true
  | .seq a b => consumes a || consumes b
  | .alt a b => consumes a && consumes b
  | .rule r => r.consumes
  | _ => false

/-- How much fuel an expression needs where nothing is left to read. What follows something read in a
sequence has the fuel of a character more. -/
def weight : Peg → Nat
  | .empty | .text _ | .textAnyCase _ | .one _ => 1
  | .seq a b => max (weight a) (if consumes a then weight b - 4096 else weight b) + 1
  | .alt a b => max (weight a) (weight b) + 1
  | .star e => weight e + 2
  | .absent e | .ahead e => weight e + 1
  | .rule r => r.weight

theorem consumes_body {r : Rule} (h : r.consumes) : consumes r.body := by
  cases r with
  | module | endOfInput | stringContent => cases h
  | unary op => cases op <;> decide
  | binary op => cases op <;> decide
  | slicePart part => cases part <;> decide
  | word w => cases w <;> decide
  | _ => decide

set_option maxRecDepth 2000 in
theorem weight_body (r : Rule) : weight r.body < r.weight := by
  cases r with
  | unary op => cases op <;> decide
  | binary op => cases op <;> decide
  | slicePart part => cases part <;> decide
  | stringContent q => cases q <;> decide
  | word w => cases w <;> decide
  | _ => decide

theorem weight_pos (e : Peg) : 0 < e.weight := by
  cases e with
  | rule r => exact Nat.zero_lt_of_lt (weight_body r)
  | _ => simp [weight]

variable {cur mid last : Cursor} {nodes : List Node}

theorem Gives.length_le {e : Peg} (h : Gives e cur (some (last, nodes))) :
    last.rest.length ≤ cur.rest.length := by
  obtain ⟨cs, hreads⟩ := h.reads
  rw [hreads.rest_eq, List.length_append]
  exact Nat.le_add_left _ _

theorem Gives.length_lt {e : Peg} (h : Gives e cur (some (last, nodes))) (he : e.consumes) :
    last.rest.length < cur.rest.length := by
  generalize ho : some (last, nodes) = outcome at h
  induction h generalizing last nodes with
  | empty | noMore | stuck | absent | ahead | again => cases he
  | @text cs _ _ h | @textAnyCase cs _ _ h =>
    cases ho
    cases cs with
    | nil => cases he
    | cons c cs =>
      rw [Cursor.length_of_text? h, List.length_cons]
      omega
  | one h =>
    cases ho
    obtain ⟨c, -, hrest, -⟩ := Cursor.reads_of_one? h
    rw [hrest]
    exact Nat.lt_succ_self _
  | seq ha hb iha ihb =>
    cases ho
    rw [consumes, Bool.or_eq_true] at he
    rcases he with he | he
    · exact Nat.lt_of_le_of_lt hb.length_le (iha he rfl)
    · exact Nat.lt_of_lt_of_le (ihb he rfl) ha.length_le
  | alt _ iha =>
    cases ho
    rw [consumes, Bool.and_eq_true] at he
    exact iha he.1 rfl
  | orElse _ _ _ ihb =>
    rw [consumes, Bool.and_eq_true] at he
    exact ihb he.2 ho
  | rule _ ih =>
    cases ho
    exact ih (consumes_body he) rfl
  | noText | noTextAnyCase | noOne | noFirst | noSecond | present | notAhead | noRule => cases ho

/-- A match that moves the position leaves less to read. -/
theorem Gives.length_lt_of_offset {e : Peg} (h : Gives e cur (some (last, nodes)))
    (hmore : cur.offset < last.offset) : last.rest.length < cur.rest.length := by
  obtain ⟨cs, hreads⟩ := h.reads
  rw [hreads.rest_eq, List.length_append]
  cases cs with
  | nil =>
    cases hreads
    exact absurd hmore (Nat.lt_irrefl _)
  | cons c cs =>
    rw [List.length_cons]
    omega

/-! ### Fuel -/

/-- With the fuel that its weight and the rest of the text ask for, no search runs out of it. -/
def SearchesEnd (fuel : Nat) : Prop :=
  (∀ e cur att, e.weight + 4096 * cur.rest.length ≤ fuel → (run fuel e cur att).1 ≠ .outOfFuel) ∧
  ∀ e cur found att, e.weight + 4096 * cur.rest.length < fuel →
    (runStar fuel e cur found att).1 ≠ .outOfFuel

theorem run_ends_succ {fuel : Nat} (ih : SearchesEnd fuel) (e : Peg) (cur : Cursor) (att : Attempts)
    (hfuel : e.weight + 4096 * cur.rest.length ≤ fuel + 1) :
    (run (fuel + 1) e cur att).1 ≠ .outOfFuel := by
  obtain ⟨hrun, hstar⟩ := ih
  rw [run.eq_def]
  cases e with
  | empty => rintro ⟨⟩
  | text cs =>
    dsimp only
    cases cur.text? (· == ·) cs <;> rintro ⟨⟩
  | textAnyCase cs =>
    dsimp only
    cases cur.text? sameAnyCase cs <;> rintro ⟨⟩
  | one cls =>
    dsimp only
    cases cur.one? cls.holds <;> rintro ⟨⟩
  | seq a b =>
    rw [weight] at hfuel
    have ha := hrun a cur att (by omega)
    have hagrees := (searchesAgree fuel).1 a cur att
    dsimp only
    generalize run fuel a cur att = outcome at ha hagrees ⊢
    rcases outcome with ⟨⟨mid, xs⟩ | _ | _, att'⟩
    · -- what is left for the second part: its own weight, less a character if one has been read
      have hb := hrun b mid att' (by
        by_cases hc : a.consumes
        · have hlt := Gives.length_lt hagrees hc
          rw [if_pos hc] at hfuel
          omega
        · have hle := Gives.length_le hagrees
          rw [if_neg hc] at hfuel
          omega)
      dsimp only
      generalize run fuel b mid att' = outcome at hb ⊢
      rcases outcome with ⟨⟨last, ys⟩ | _ | _, att''⟩
      · rintro ⟨⟩
      · rintro ⟨⟩
      · exact absurd rfl hb
    · rintro ⟨⟩
    · exact absurd rfl ha
  | alt a b =>
    rw [weight] at hfuel
    have ha := hrun a cur att (by omega)
    dsimp only
    generalize run fuel a cur att = outcome at ha ⊢
    rcases outcome with ⟨⟨mid, xs⟩ | _ | _, att'⟩
    · rintro ⟨⟩
    · exact hrun b cur att' (by omega)
    · exact absurd rfl ha
  | star body =>
    rw [weight] at hfuel
    exact hstar body cur [] att (by omega)
  | absent body | ahead body =>
    rw [weight] at hfuel
    have hb := hrun body cur att (by omega)
    dsimp only
    generalize run fuel body cur att = outcome at hb ⊢
    rcases outcome with ⟨⟨mid, xs⟩ | _ | _, att'⟩
    · rintro ⟨⟩
    · rintro ⟨⟩
    · exact absurd rfl hb
  | rule r =>
    have hweight := weight_body r
    rw [weight] at hfuel
    have hb := hrun r.body cur att (by omega)
    dsimp only
    generalize run fuel r.body cur att = outcome at hb ⊢
    rcases outcome with ⟨⟨mid, xs⟩ | _ | _, att'⟩
    · rintro ⟨⟩
    · rintro ⟨⟩
    · exact absurd rfl hb

theorem runStar_ends_succ {fuel : Nat} (ih : SearchesEnd fuel) (e : Peg) (cur : Cursor)
    (found : List Node) (att : Attempts) (hfuel : e.weight + 4096 * cur.rest.length < fuel + 1) :
    (runStar (fuel + 1) e cur found att).1 ≠ .outOfFuel := by
  obtain ⟨hrun, hstar⟩ := ih
  have he := hrun e cur att (by omega)
  have hagrees := (searchesAgree fuel).1 e cur att
  rw [runStar]
  generalize run fuel e cur att = outcome at he hagrees ⊢
  rcases outcome with ⟨⟨mid, xs⟩ | _ | _, att'⟩
  · dsimp only
    split
    · rename_i hmore
      have hlt := Gives.length_lt_of_offset hagrees hmore
      exact hstar e mid _ att' (by omega)
    · rintro ⟨⟩
  · rintro ⟨⟩
  · exact absurd rfl he

theorem searchesEnd (fuel : Nat) : SearchesEnd fuel := by
  induction fuel with
  | zero =>
    refine ⟨fun e _ _ hfuel => ?_, fun _ _ _ _ hfuel => absurd hfuel (Nat.not_lt_zero _)⟩
    have hweight := weight_pos e
    omega
  | succ fuel ih => exact ⟨run_ends_succ ih, runStar_ends_succ ih⟩

/-! ### Outcomes -/

/-- An expression has an outcome at every position. -/
theorem gives_exists (e : Peg) (cur : Cursor) : ∃ outcome, Gives e cur outcome := by
  have hends := (searchesEnd (e.weight + 4096 * cur.rest.length)).1 e cur .none (Nat.le_refl _)
  have hagrees := (searchesAgree (e.weight + 4096 * cur.rest.length)).1 e cur .none
  generalize run _ e cur .none = outcome at hends hagrees
  rcases outcome with ⟨⟨last, nodes⟩ | _ | _, att⟩
  · exact ⟨_, hagrees⟩
  · exact ⟨_, hagrees⟩
  · exact absurd rfl hends

/-- The outcome at a position is the only one. -/
theorem Gives.unique {e : Peg} {outcome outcome' : Option (Cursor × List Node)}
    (h : Gives e cur outcome) (h' : Gives e cur outcome') : outcome = outcome' := by
  induction h generalizing outcome' with
  | empty => cases h'; rfl
  | text h | noText h | textAnyCase h | noTextAnyCase h | one h | noOne h =>
    cases h' <;> simp_all
  | seq _ _ iha ihb =>
    cases h' with
    | seq ha hb =>
      cases iha ha
      cases ihb hb
      rfl
    | noFirst ha => cases iha ha
    | noSecond ha hb =>
      cases iha ha
      cases ihb hb
  | noFirst _ iha =>
    cases h' with
    | seq ha _ | noSecond ha _ => cases iha ha
    | noFirst _ => rfl
  | noSecond _ _ iha ihb =>
    cases h' with
    | seq ha hb =>
      cases iha ha
      cases ihb hb
    | noFirst _ | noSecond _ _ => rfl
  | alt _ iha =>
    cases h' with
    | alt ha => exact iha ha
    | orElse ha _ => cases iha ha
  | orElse _ _ iha ihb =>
    cases h' with
    | alt ha => cases iha ha
    | orElse _ hb => exact ihb hb
  | again _ hmore _ ihe ihs =>
    cases h' with
    | again he _ hs =>
      cases ihe he
      cases ihs hs
      rfl
    | noMore he => cases ihe he
    | stuck he hsame =>
      cases ihe he
      exact absurd hmore hsame
  | noMore _ ihe =>
    cases h' with
    | again he _ _ => cases ihe he
    | noMore _ | stuck _ _ => rfl
  | stuck _ hsame ihe =>
    cases h' with
    | again he hmore _ =>
      cases ihe he
      exact absurd hmore hsame
    | noMore _ | stuck _ _ => rfl
  | absent _ ihe =>
    cases h' with
    | absent _ => rfl
    | present he => cases ihe he
  | present _ ihe =>
    cases h' with
    | absent he => cases ihe he
    | present _ => rfl
  | ahead _ ihe =>
    cases h' with
    | ahead _ => rfl
    | notAhead he => cases ihe he
  | notAhead _ ihe =>
    cases h' with
    | ahead he => cases ihe he
    | notAhead _ => rfl
  | rule _ ih =>
    cases h' with
    | rule h =>
      cases ih h
      rfl
    | noRule h => cases ih h
  | noRule _ ih =>
    cases h' with
    | rule h => cases ih h
    | noRule _ => rfl

/-- What does not match fails. -/
theorem Gives.none_of_not {e : Peg} (h : ∀ last nodes, ¬ Gives e cur (some (last, nodes))) :
    Gives e cur none := by
  obtain ⟨_ | ⟨last, nodes⟩, hgives⟩ := gives_exists e cur
  · exact hgives
  · exact absurd hgives (h last nodes)

/-- A search with enough fuel finds what the expression gives, whatever failures are on record. -/
theorem Gives.run_eq {e : Peg} (h : Gives e cur (some (last, nodes))) {fuel : Nat}
    (hfuel : e.weight + 4096 * cur.rest.length ≤ fuel) (att : Attempts) :
    (run fuel e cur att).1 = .matched last nodes := by
  have hends := (searchesEnd fuel).1 e cur att hfuel
  have hagrees := (searchesAgree fuel).1 e cur att
  generalize run fuel e cur att = outcome at hends hagrees
  rcases outcome with ⟨⟨last', nodes'⟩ | _ | _, att'⟩
  · cases Gives.unique hagrees h
    rfl
  · cases Gives.unique hagrees h
  · exact absurd rfl hends

theorem weight_le_fuelFor (r : Rule) (source : List Char) :
    (Peg.rule r).weight + 4096 * source.length ≤ fuelFor source := by
  have hweight : (Peg.rule r).weight ≤ 4096 := by
    rw [weight, Rule.weight.eq_def]
    split <;> omega
  rw [fuelFor]
  omega

/-- The search through a whole text ends. -/
theorem matchText_ends (r : Rule) (source : List Char) : (r.matchText source).1 ≠ .outOfFuel :=
  (searchesEnd (fuelFor source)).1 (.rule r) (.start source) .none (weight_le_fuelFor r source)

/-- The search through a whole text finds what the rule gives at its start. -/
theorem matchText_of_gives {r : Rule} {source : List Char}
    (h : Gives (.rule r) (.start source) (some (last, nodes))) :
    (r.matchText source).1 = .matched last nodes :=
  h.run_eq (weight_le_fuelFor r source) .none

end Peg
end ConfigSandbox
