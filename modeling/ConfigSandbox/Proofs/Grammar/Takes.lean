import ConfigSandbox.Proofs.Grammar.Search

/-!
# What an expression reads of a known text

Where the text ahead is known, so is the outcome: an expression reads the first part and leaves the second,
or it reads nothing, or it fails. Most of what has to be known about a text is its first character. Which
expressions fail at it is then found by computation, down to those that take more of the text to decide.
-/
namespace ConfigSandbox.Peg

/-- Where the text is ahead, the expression fails. -/
def Refuses (e : Peg) (text : List Char) : Prop := ∀ cur : Cursor, cur.rest = text → Gives e cur none

/-- Where the text is ahead, the expression matches without reading and leaves no nodes. -/
def Skips (e : Peg) (text : List Char) : Prop :=
  ∀ cur : Cursor, cur.rest = text → Gives e cur (some (cur, []))

/-- Where `cs` and then `tail` are ahead, the expression reads `cs` and leaves nodes of the given kind. -/
def Takes (e : Peg) (cs tail : List Char) (P : List Node → Prop) : Prop :=
  ∀ cur : Cursor, cur.rest = cs ++ tail →
    ∃ last nodes, Gives e cur (some (last, nodes)) ∧ cur.Reads cs last ∧ P nodes

/-- No nodes are left. -/
def Silent (nodes : List Node) : Prop := nodes = []

/-- Nodes of the one kind, then nodes of the other. -/
def Both (P Q : List Node → Prop) (nodes : List Node) : Prop :=
  ∃ xs ys, nodes = xs ++ ys ∧ P xs ∧ Q ys

/-- The node of a rule whose text is `cs` and which has children of the given kind. -/
def Single (r : Rule) (cs : List Char) (P : List Node → Prop) (nodes : List Node) : Prop :=
  ∃ first last children, nodes = [.mk r first last children] ∧ first.Reads cs last ∧ P children

variable {a b e : Peg} {r : Rule} {cs ds text tail : List Char} {P Q : List Node → Prop}

theorem Takes.mono (h : Takes e cs tail P) (hPQ : ∀ nodes, P nodes → Q nodes) : Takes e cs tail Q := by
  intro cur hrest
  obtain ⟨last, nodes, hgives, hreads, hnodes⟩ := h cur hrest
  exact ⟨last, nodes, hgives, hreads, hPQ nodes hnodes⟩

theorem Skips.takes (h : Skips e tail) : Takes e [] tail Silent :=
  fun cur hrest => ⟨cur, [], h cur hrest, .nothing cur, rfl⟩

/-- At the end of what has been read the rest is ahead. -/
theorem rest_of_reads {cur last : Cursor} (hrest : cur.rest = cs ++ tail) (hreads : cur.Reads cs last) :
    last.rest = tail := by
  rw [hreads.rest_eq] at hrest
  exact List.append_cancel_left hrest

/-! ### Sequences -/

theorem Takes.seq (ha : Takes a cs (ds ++ tail) P) (hb : Takes b ds tail Q) :
    Takes (.seq a b) (cs ++ ds) tail (Both P Q) := by
  intro cur hrest
  rw [List.append_assoc] at hrest
  obtain ⟨mid, xs, hxs, hmid, hP⟩ := ha cur hrest
  obtain ⟨last, ys, hys, hlast, hQ⟩ := hb mid (rest_of_reads hrest hmid)
  exact ⟨last, xs ++ ys, .seq hxs hys, hmid.append hlast, xs, ys, rfl, hP, hQ⟩

/-- The first part leaves no nodes. -/
theorem Takes.after (hb : Takes b ds tail P) (ha : Takes a cs (ds ++ tail) Silent) :
    Takes (.seq a b) (cs ++ ds) tail P := by
  refine (ha.seq hb).mono ?_
  rintro _ ⟨_, ys, rfl, rfl, hP⟩
  exact hP

/-- The second part leaves no nodes. -/
theorem Takes.close (ha : Takes a cs (ds ++ tail) P) (hb : Takes b ds tail Silent) :
    Takes (.seq a b) (cs ++ ds) tail P := by
  refine (ha.seq hb).mono ?_
  rintro _ ⟨xs, _, rfl, hP, rfl⟩
  rwa [List.append_nil]

/-- The second part reads nothing. -/
theorem Takes.before (ha : Takes a cs tail P) (hb : Skips b tail) : Takes (.seq a b) cs tail P := by
  have h : Takes (.seq a b) (cs ++ []) tail P := ha.close hb.takes
  rwa [List.append_nil] at h

/-- The first part reads nothing. -/
theorem Takes.past (hb : Takes b cs tail P) (ha : Skips a (cs ++ tail)) : Takes (.seq a b) cs tail P :=
  hb.after ha.takes

theorem Skips.seq (ha : Skips a text) (hb : Skips b text) : Skips (.seq a b) text :=
  fun cur hrest => .seq (ha cur hrest) (hb cur hrest)

theorem Refuses.seq (ha : Refuses a text) : Refuses (.seq a b) text :=
  fun cur hrest => .noFirst (ha cur hrest)

/-- The first part reads its text, and the second fails at what is left. -/
theorem Refuses.after (hb : Refuses b tail) (ha : Takes a cs tail P) : Refuses (.seq a b) (cs ++ tail) := by
  intro cur hrest
  obtain ⟨mid, xs, hxs, hmid, -⟩ := ha cur hrest
  exact .noSecond hxs (hb mid (rest_of_reads hrest hmid))

theorem Refuses.past (hb : Refuses b text) (ha : Skips a text) : Refuses (.seq a b) text :=
  fun cur hrest => .noSecond (ha cur hrest) (hb cur hrest)

/-! ### Choices -/

theorem Takes.alt (h : Takes a cs tail P) : Takes (.alt a b) cs tail P := by
  intro cur hrest
  obtain ⟨last, nodes, hgives, hmore⟩ := h cur hrest
  exact ⟨last, nodes, .alt hgives, hmore⟩

theorem Takes.orElse (h : Takes b cs tail P) (ha : Refuses a (cs ++ tail)) :
    Takes (.alt a b) cs tail P := by
  intro cur hrest
  obtain ⟨last, nodes, hgives, hmore⟩ := h cur hrest
  exact ⟨last, nodes, .orElse (ha cur hrest) hgives, hmore⟩

theorem Refuses.alt (ha : Refuses a text) (hb : Refuses b text) : Refuses (.alt a b) text :=
  fun cur hrest => .orElse (ha cur hrest) (hb cur hrest)

theorem Refuses.choice {es : List Peg} (h : ∀ e ∈ es, Refuses e text) : Refuses (choice es) text := by
  match es with
  | [] => exact fun cur _ => .present (.empty cur)
  | [e] => exact h e List.mem_cons_self
  | e :: f :: rest =>
    exact (h e List.mem_cons_self).alt (Refuses.choice fun e' he' => h e' (List.mem_cons_of_mem _ he'))

theorem Takes.choice {before after : List Peg} (h : Takes e cs tail P)
    (hbefore : ∀ b ∈ before, Refuses b (cs ++ tail)) :
    Takes (choice (before ++ e :: after)) cs tail P := by
  induction before with
  | nil =>
    cases after with
    | nil => exact h
    | cons f rest => exact h.alt
  | cons b before ih =>
    obtain ⟨hb, hbefore⟩ := List.forall_mem_cons.mp hbefore
    obtain ⟨f, rest, hrest⟩ := List.exists_cons_of_ne_nil
      (List.append_ne_nil_of_right_ne_nil before (List.cons_ne_nil e after))
    have hih := ih hbefore
    rw [List.cons_append, hrest]
    rw [hrest] at hih
    exact hih.orElse hb

/-- One of a choice is read where those before it fail. -/
theorem Takes.choice_of_mem {es : List Peg} (h : Takes e cs tail P) (hmem : e ∈ es)
    (hbefore : ∀ b ∈ es.takeWhile (· != e), Refuses b (cs ++ tail)) : Takes (Peg.choice es) cs tail P := by
  obtain ⟨before, after, rfl, hnot⟩ := List.eq_append_cons_of_mem hmem
  have hfirst : (before ++ e :: after).takeWhile (· != e) = before := by
    have hne : ∀ b ∈ before, (b != e) = true := fun b hb => bne_iff_ne.mpr fun heq => hnot (heq ▸ hb)
    rw [List.takeWhile_append_of_pos hne]
    simp
  exact h.choice (hfirst ▸ hbefore)

/-- An option that is not taken. -/
theorem Refuses.opt (h : Refuses e text) : Skips (opt e) text :=
  fun cur hrest => .orElse (h cur hrest) (.empty cur)

theorem Takes.opt (h : Takes e cs tail P) : Takes (opt e) cs tail P := h.alt

/-! ### Texts and rules -/

theorem Takes.lit : Takes (.text cs) cs tail Silent := by
  intro cur hrest
  have hread : ∃ last, cur.text? (· == ·) cs = some last := by
    induction cs generalizing cur with
    | nil => exact ⟨cur, rfl⟩
    | cons c cs ih =>
      have hone : cur.one? (c == ·) = some (cur.past c (cs ++ tail)) := by
        rw [Cursor.one?, hrest]
        simp
      rw [Cursor.text?, hone]
      exact ih _ rfl
  obtain ⟨last, hlast⟩ := hread
  exact ⟨last, [], .text hlast, Cursor.reads_of_text hlast, rfl⟩

theorem Takes.one {cls : CharClass} {c : Char} (hc : cls.holds c) : Takes (.one cls) [c] tail Silent := by
  intro cur hrest
  have hone : cur.one? cls.holds = some (cur.past c tail) := by
    rw [Cursor.one?, hrest]
    exact if_pos hc
  exact ⟨_, [], .one hone, .char hrest (.nothing _), rfl⟩

theorem Takes.rule (h : Takes r.body cs tail P) : Takes (.rule r) cs tail (Single r cs P) := by
  intro cur hrest
  obtain ⟨last, nodes, hgives, hreads, hP⟩ := h cur hrest
  exact ⟨last, _, .rule hgives, hreads, cur, last, nodes, rfl, hreads, hP⟩

theorem Refuses.rule (h : Refuses r.body text) : Refuses (.rule r) text :=
  fun cur hrest => .noRule (h cur hrest)

theorem Refuses.of_not {e : Peg} (h : ∀ cur last nodes, cur.rest = text →
    ¬ Gives e cur (some (last, nodes))) : Refuses e text :=
  fun cur hrest => Gives.none_of_not fun last nodes => h cur last nodes hrest

theorem Refuses.lit (h : ¬ cs <+: text) : Refuses (.text cs) text := by
  refine .of_not fun cur last nodes hrest hgives => h ?_
  cases hgives with
  | text hread =>
    rw [← hrest, (Cursor.reads_of_text hread).rest_eq]
    exact List.prefix_append cs last.rest

/-! ### Repetitions -/

theorem Refuses.star (h : Refuses e text) : Skips (.star e) text := fun cur hrest => .noMore (h cur hrest)

theorem Takes.star (he : Takes e cs (ds ++ tail) P) (hne : cs ≠ []) (hs : Takes (.star e) ds tail Q) :
    Takes (.star e) (cs ++ ds) tail (Both P Q) := by
  intro cur hrest
  rw [List.append_assoc] at hrest
  obtain ⟨mid, xs, hxs, hmid, hP⟩ := he cur hrest
  obtain ⟨last, ys, hys, hlast, hQ⟩ := hs mid (rest_of_reads hrest hmid)
  refine ⟨last, xs ++ ys, .again hxs ?_ hys, hmid.append hlast, xs, ys, rfl, hP, hQ⟩
  -- something has been read, so the position has moved
  obtain ⟨c, cs, rfl⟩ := List.exists_cons_of_ne_nil hne
  rw [hmid.offset_eq, utf8Length]
  have := c.utf8Size_pos
  omega

theorem Takes.star_silent (he : Takes e cs (ds ++ tail) Silent) (hne : cs ≠ [])
    (hs : Takes (.star e) ds tail Silent) : Takes (.star e) (cs ++ ds) tail Silent := by
  refine (he.star hne hs).mono ?_
  rintro _ ⟨_, _, rfl, rfl, rfl⟩
  rfl

theorem Refuses.many (h : Refuses e text) : Skips (many e) text := h.seq.opt

/-! ### The first character -/

/-- What a look at the text ahead tells: that the expression fails, that it matches without reading, or
nothing. -/
inductive Glance where
  | refuses | skips | unclear
deriving DecidableEq

/-- What follows from the failure of all blocked expressions, down to rules inside so many others. -/
def glanceWithin (blocked : Peg → Bool) : Nat → Peg → Glance
  | 0, _ => .unclear
  | fuel + 1, e =>
    if blocked e then .refuses
    else match e with
    | .empty => .skips
    | .seq a b =>
      match glanceWithin blocked fuel a with
      | .refuses => .refuses
      | .skips => glanceWithin blocked fuel b
      | .unclear => .unclear
    | .alt a b =>
      match glanceWithin blocked fuel a with
      | .refuses => glanceWithin blocked fuel b
      | other => other
    | .star e =>
      match glanceWithin blocked fuel e with
      | .unclear => .unclear
      | _ => .skips
    | .absent e =>
      match glanceWithin blocked fuel e with
      | .refuses => .skips
      | .skips => .refuses
      | .unclear => .unclear
    | .ahead e => glanceWithin blocked fuel e
    | .rule r =>
      match glanceWithin blocked fuel r.body with
      | .refuses => .refuses
      | _ => .unclear
    | _ => .unclear

/-- The grammar has no deeper rules that are looked into. -/
def glance (blocked : Peg → Bool) (e : Peg) : Glance := glanceWithin blocked 100 e

/-- That the expression fails or skips, as the glance has it. -/
def Glance.Holds (e : Peg) (text : List Char) : Glance → Prop
  | .refuses => Refuses e text
  | .skips => Skips e text
  | .unclear => True

theorem glanceWithin_holds {blocked : Peg → Bool} (hb : ∀ e, blocked e → Refuses e text) (fuel : Nat) (e : Peg) :
    (glanceWithin blocked fuel e).Holds e text := by
  induction fuel generalizing e with
  | zero => trivial
  | succ fuel ih =>
    rw [glanceWithin.eq_def]
    dsimp only
    split
    · exact hb e ‹_›
    cases e with
    | empty => exact fun cur _ => .empty cur
    | text | textAnyCase | one => trivial
    | seq a b =>
      have ha := ih a
      have hnext := ih b
      dsimp only
      cases hga : glanceWithin blocked fuel a <;> rw [hga] at ha
      · exact ha.seq
      · dsimp only
        cases hgb : glanceWithin blocked fuel b <;> rw [hgb] at hnext
        · exact hnext.past ha
        · exact ha.seq hnext
        · trivial
      · trivial
    | alt a b =>
      have ha := ih a
      have hnext := ih b
      dsimp only
      cases hga : glanceWithin blocked fuel a <;> rw [hga] at ha
      · dsimp only
        cases hgb : glanceWithin blocked fuel b <;> rw [hgb] at hnext
        · exact ha.alt hnext
        · exact fun cur hrest => .orElse (ha cur hrest) (hnext cur hrest)
        · trivial
      · exact fun cur hrest => .alt (ha cur hrest)
      · trivial
    | star e =>
      have he := ih e
      dsimp only
      cases hg : glanceWithin blocked fuel e <;> rw [hg] at he
      · exact he.star
      · exact fun cur hrest => .stuck (he cur hrest) (Nat.lt_irrefl _)
      · trivial
    | absent e =>
      have he := ih e
      dsimp only
      cases hg : glanceWithin blocked fuel e <;> rw [hg] at he
      · exact fun cur hrest => .absent (he cur hrest)
      · exact fun cur hrest => .present (he cur hrest)
      · trivial
    | ahead e =>
      have he := ih e
      dsimp only
      cases hg : glanceWithin blocked fuel e <;> rw [hg] at he
      · exact fun cur hrest => .notAhead (he cur hrest)
      · exact fun cur hrest => .ahead (he cur hrest)
      · trivial
    | rule r =>
      have he := ih r.body
      dsimp only
      cases hg : glanceWithin blocked fuel r.body <;> rw [hg] at he
      · exact he.rule
      · trivial
      · trivial

theorem glance_holds {blocked : Peg → Bool} (hb : ∀ e, blocked e → Refuses e text) (e : Peg) :
    (glance blocked e).Holds e text := glanceWithin_holds hb 100 e

/-- The expressions that fail at once where the text begins with the character, or is at its end. -/
def blockedAt : Option Char → Peg → Bool
  | some c, .text (d :: _) => d != c
  | some c, .textAnyCase (d :: _) => !sameAnyCase d c
  | some c, .one cls => !cls.holds c
  | none, .text (_ :: _) | none, .textAnyCase (_ :: _) | none, .one _ => true
  | _, _ => false

theorem one?_eq_none {cur : Cursor} {accepts : Char → Bool} (h : ∀ c ∈ cur.rest.head?, accepts c = false) :
    cur.one? accepts = none := by
  rw [Cursor.one?]
  split
  · rfl
  · rename_i c rest hrest
    rw [hrest] at h
    rw [if_neg]
    simp [h c rfl]

theorem blockedAt_refuses {head : Option Char} (hhead : text.head? = head) (e : Peg)
    (he : blockedAt head e) : Refuses e text := by
  intro cur hrest
  have hnone {accepts : Char → Bool} (h : ∀ c ∈ head, accepts c = false) : cur.one? accepts = none :=
    one?_eq_none (by rw [hrest, hhead]; exact h)
  cases e with
  | text ds =>
    cases ds with
    | nil => cases head <;> cases he
    | cons d ds =>
      refine .noText ?_
      rw [Cursor.text?, hnone]
      rintro c rfl
      simpa [blockedAt] using he
  | textAnyCase ds =>
    cases ds with
    | nil => cases head <;> cases he
    | cons d ds =>
      refine .noTextAnyCase ?_
      rw [Cursor.text?, hnone]
      rintro c rfl
      simpa [blockedAt] using he
  | one cls =>
    refine .noOne (hnone ?_)
    rintro c rfl
    simpa [blockedAt] using he
  | _ => cases head <;> cases he

/-- What the first character tells. -/
theorem glance_at (e : Peg) (text : List Char) : (glance (blockedAt text.head?) e).Holds e text :=
  glance_holds (blockedAt_refuses rfl) e

/-- Whichever of some characters the text begins with, or none if that is one of them. -/
theorem skips_at (heads : List (Option Char)) (h : text.head? ∈ heads)
    (he : ∀ head ∈ heads, glance (blockedAt head) e = .skips) : Skips e text := by
  have hholds := glance_at e text
  rwa [he _ h] at hholds

theorem refuses_at (heads : List (Option Char)) (h : text.head? ∈ heads)
    (he : ∀ head ∈ heads, glance (blockedAt head) e = .refuses) : Refuses e text := by
  have hholds := glance_at e text
  rwa [he _ h] at hholds

theorem refuses_lit {c d : Char} (h : d ≠ c) : Refuses (.text (d :: ds)) (c :: text) :=
  blockedAt_refuses rfl _ (by simpa [blockedAt] using h)

end ConfigSandbox.Peg
