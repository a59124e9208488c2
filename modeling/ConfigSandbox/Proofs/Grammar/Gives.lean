import ConfigSandbox.Grammar.Match
import ConfigSandbox.Proofs.Source.Reads

/-!
# What an expression of the grammar gives

A relation without fuel and without the record of failures. A search that ends agrees with it, so what
holds of the relation holds of every match and of every failure; whether a search ends is not the
question here. An expression that matches has read the characters between the two positions.
-/
namespace ConfigSandbox.Peg

/-- At a position an expression gives the position after its text and the nodes of the rules in it, or
nothing. A lookahead gives the position it began at, and no nodes. -/
inductive Gives : Peg → Cursor → Option (Cursor × List Node) → Prop
  | empty (cur : Cursor) : Gives .empty cur (some (cur, []))
  | text {cs : List Char} {cur last : Cursor} (h : cur.text? (· == ·) cs = some last) :
      Gives (.text cs) cur (some (last, []))
  | noText {cs : List Char} {cur : Cursor} (h : cur.text? (· == ·) cs = none) :
      Gives (.text cs) cur none
  | textAnyCase {cs : List Char} {cur last : Cursor} (h : cur.text? sameAnyCase cs = some last) :
      Gives (.textAnyCase cs) cur (some (last, []))
  | noTextAnyCase {cs : List Char} {cur : Cursor} (h : cur.text? sameAnyCase cs = none) :
      Gives (.textAnyCase cs) cur none
  | one {cls : CharClass} {cur last : Cursor} (h : cur.one? cls.holds = some last) :
      Gives (.one cls) cur (some (last, []))
  | noOne {cls : CharClass} {cur : Cursor} (h : cur.one? cls.holds = none) : Gives (.one cls) cur none
  | seq {a b : Peg} {cur mid last : Cursor} {xs ys : List Node} (ha : Gives a cur (some (mid, xs)))
      (hb : Gives b mid (some (last, ys))) : Gives (.seq a b) cur (some (last, xs ++ ys))
  | noFirst {a b : Peg} {cur : Cursor} (ha : Gives a cur none) : Gives (.seq a b) cur none
  | noSecond {a b : Peg} {cur mid : Cursor} {xs : List Node} (ha : Gives a cur (some (mid, xs)))
      (hb : Gives b mid none) : Gives (.seq a b) cur none
  | alt {a b : Peg} {cur last : Cursor} {xs : List Node} (ha : Gives a cur (some (last, xs))) :
      Gives (.alt a b) cur (some (last, xs))
  | orElse {a b : Peg} {cur : Cursor} {outcome : Option (Cursor × List Node)}
      (ha : Gives a cur none) (hb : Gives b cur outcome) : Gives (.alt a b) cur outcome
  | again {e : Peg} {cur mid last : Cursor} {xs ys : List Node} (he : Gives e cur (some (mid, xs)))
      (hmore : cur.offset < mid.offset) (hs : Gives (.star e) mid (some (last, ys))) :
      Gives (.star e) cur (some (last, xs ++ ys))
  | noMore {e : Peg} {cur : Cursor} (he : Gives e cur none) : Gives (.star e) cur (some (cur, []))
  | stuck {e : Peg} {cur mid : Cursor} {xs : List Node} (he : Gives e cur (some (mid, xs)))
      (hsame : ¬ cur.offset < mid.offset) : Gives (.star e) cur (some (cur, []))
  | absent {e : Peg} {cur : Cursor} (he : Gives e cur none) : Gives (.absent e) cur (some (cur, []))
  | present {e : Peg} {cur mid : Cursor} {xs : List Node} (he : Gives e cur (some (mid, xs))) :
      Gives (.absent e) cur none
  | ahead {e : Peg} {cur mid : Cursor} {xs : List Node} (he : Gives e cur (some (mid, xs))) :
      Gives (.ahead e) cur (some (cur, []))
  | notAhead {e : Peg} {cur : Cursor} (he : Gives e cur none) : Gives (.ahead e) cur none
  | rule {r : Rule} {cur last : Cursor} {xs : List Node} (h : Gives r.body cur (some (last, xs))) :
      Gives (.rule r) cur (some (last, [.mk r cur last xs]))
  | noRule {r : Rule} {cur : Cursor} (h : Gives r.body cur none) : Gives (.rule r) cur none

variable {cur last : Cursor} {nodes : List Node}

theorem Gives.of_seq {a b : Peg} (h : Gives (.seq a b) cur (some (last, nodes))) :
    ∃ mid xs ys, Gives a cur (some (mid, xs)) ∧ Gives b mid (some (last, ys)) ∧ nodes = xs ++ ys := by
  cases h with
  | seq ha hb => exact ⟨_, _, _, ha, hb, rfl⟩

theorem Gives.of_rule {r : Rule} (h : Gives (.rule r) cur (some (last, nodes))) :
    ∃ xs, Gives r.body cur (some (last, xs)) ∧ nodes = [.mk r cur last xs] := by
  cases h with
  | rule h => exact ⟨_, h, rfl⟩

/-! ### Searches -/

/-- A search that has ended has found what the expression gives. -/
def Agrees (e : Peg) (cur : Cursor) : Match → Prop
  | .matched last nodes => Gives e cur (some (last, nodes))
  | .failed => Gives e cur none
  | .outOfFuel => True

/-- A repetition has ended with the nodes it began with and those it has found. -/
def StarAgrees (e : Peg) (cur : Cursor) (found : List Node) : Match → Prop
  | .matched last nodes => ∃ xs, nodes = found.reverse ++ xs ∧ Gives (.star e) cur (some (last, xs))
  | .failed => False
  | .outOfFuel => True

/-- Below the given fuel every search agrees. -/
def SearchesAgree (fuel : Nat) : Prop := (∀ e cur att, Agrees e cur (run fuel e cur att).1) ∧
  ∀ e cur found att, StarAgrees e cur found (runStar fuel e cur found att).1

theorem run_agrees_succ {fuel : Nat} (ih : SearchesAgree fuel) (e : Peg) (cur : Cursor)
    (att : Attempts) : Agrees e cur (run (fuel + 1) e cur att).1 := by
  obtain ⟨hrun, hstar⟩ := ih
  rw [run.eq_def]
  cases e with
  | empty => exact .empty cur
  | text cs =>
    dsimp only
    cases h : cur.text? (· == ·) cs with
    | none => exact .noText h
    | some last => exact .text h
  | textAnyCase cs =>
    dsimp only
    cases h : cur.text? sameAnyCase cs with
    | none => exact .noTextAnyCase h
    | some last => exact .textAnyCase h
  | one cls =>
    dsimp only
    cases h : cur.one? cls.holds with
    | none => exact .noOne h
    | some last => exact .one h
  | seq a b =>
    have ha := hrun a cur att
    dsimp only
    generalize run fuel a cur att = outcome at ha ⊢
    rcases outcome with ⟨⟨mid, xs⟩ | _ | _, att'⟩
    · have hb := hrun b mid att'
      dsimp only
      generalize run fuel b mid att' = outcome at hb ⊢
      rcases outcome with ⟨⟨last, ys⟩ | _ | _, att''⟩
      · exact .seq ha hb
      · exact .noSecond ha hb
      · trivial
    · exact .noFirst ha
    · trivial
  | alt a b =>
    have ha := hrun a cur att
    dsimp only
    generalize run fuel a cur att = outcome at ha ⊢
    rcases outcome with ⟨⟨mid, xs⟩ | _ | _, att'⟩
    · exact .alt ha
    · have hb := hrun b cur att'
      dsimp only
      generalize run fuel b cur att' = outcome at hb ⊢
      rcases outcome with ⟨⟨last, ys⟩ | _ | _, att''⟩
      · exact .orElse ha hb
      · exact .orElse ha hb
      · trivial
    · trivial
  | star body =>
    have hs := hstar body cur [] att
    dsimp only
    generalize runStar fuel body cur [] att = outcome at hs ⊢
    rcases outcome with ⟨⟨last, xs⟩ | _ | _, att'⟩
    · obtain ⟨ys, rfl, hs⟩ := hs
      exact hs
    · cases hs
    · trivial
  | absent body =>
    have hb := hrun body cur att
    dsimp only
    generalize run fuel body cur att = outcome at hb ⊢
    rcases outcome with ⟨⟨mid, xs⟩ | _ | _, att'⟩
    · exact .present hb
    · exact .absent hb
    · trivial
  | ahead body =>
    have hb := hrun body cur att
    dsimp only
    generalize run fuel body cur att = outcome at hb ⊢
    rcases outcome with ⟨⟨mid, xs⟩ | _ | _, att'⟩
    · exact .ahead hb
    · exact .notAhead hb
    · trivial
  | rule r =>
    have hb := hrun r.body cur att
    dsimp only
    generalize run fuel r.body cur att = outcome at hb ⊢
    rcases outcome with ⟨⟨mid, xs⟩ | _ | _, att'⟩
    · exact .rule hb
    · exact .noRule hb
    · trivial

theorem runStar_agrees_succ {fuel : Nat} (ih : SearchesAgree fuel) (e : Peg) (cur : Cursor)
    (found : List Node) (att : Attempts) :
    StarAgrees e cur found (runStar (fuel + 1) e cur found att).1 := by
  obtain ⟨hrun, hstar⟩ := ih
  have he := hrun e cur att
  rw [runStar]
  generalize run fuel e cur att = outcome at he ⊢
  rcases outcome with ⟨⟨mid, xs⟩ | _ | _, att'⟩
  · dsimp only
    split
    · rename_i hmore
      have hs := hstar e mid (xs.reverse ++ found) att'
      generalize runStar fuel e mid (xs.reverse ++ found) att' = outcome at hs ⊢
      rcases outcome with ⟨⟨last, ys⟩ | _ | _, att''⟩
      · obtain ⟨zs, rfl, hs⟩ := hs
        exact ⟨xs ++ zs, by simp, .again he hmore hs⟩
      · cases hs
      · trivial
    · rename_i hsame
      exact ⟨[], (List.append_nil _).symm, .stuck he hsame⟩
  · exact ⟨[], (List.append_nil _).symm, .noMore he⟩
  · trivial

theorem searchesAgree (fuel : Nat) : SearchesAgree fuel := by
  -- fuel goes down at every step, so each half is needed of one less
  induction fuel with
  | zero => exact ⟨fun _ _ _ => by rw [run]; trivial, fun _ _ _ _ => by rw [runStar]; trivial⟩
  | succ fuel ih => exact ⟨run_agrees_succ ih, runStar_agrees_succ ih⟩

/-- What a rule has matched in a text is what it gives at the start of the text. -/
theorem gives_of_matchText {r : Rule} {source : List Char} {att : Attempts}
    (h : r.matchText source = (.matched last nodes, att)) :
    Gives (.rule r) (.start source) (some (last, nodes)) := by
  have hagrees := (searchesAgree (fuelFor source)).1 (.rule r) (.start source) .none
  rw [Rule.matchText] at h
  rw [h] at hagrees
  exact hagrees

/-! ### The characters read -/

theorem Gives.reads {e : Peg} (h : Gives e cur (some (last, nodes))) : ∃ cs, cur.Reads cs last := by
  generalize ho : some (last, nodes) = outcome at h
  induction h generalizing last nodes with
  | empty | absent | ahead | noMore | stuck =>
    cases ho
    exact ⟨[], .nothing _⟩
  | text h =>
    cases ho
    exact ⟨_, Cursor.reads_of_text h⟩
  | textAnyCase h =>
    cases ho
    obtain ⟨read, hread, -⟩ := Cursor.reads_of_text? (fun _ _ _ _ => True.intro) h
    exact ⟨read, hread⟩
  | one h =>
    cases ho
    obtain ⟨c, -, hrest, hpast⟩ := Cursor.reads_of_one? h
    exact ⟨[c], .char hrest (hpast ▸ .nothing _)⟩
  | seq _ _ iha ihb | again _ _ _ iha ihb =>
    cases ho
    obtain ⟨cs, hcs⟩ := iha rfl
    obtain ⟨ds, hds⟩ := ihb rfl
    exact ⟨cs ++ ds, hcs.append hds⟩
  | alt _ iha =>
    cases ho
    exact iha rfl
  | orElse _ _ _ ihb => exact ihb ho
  | rule _ ih =>
    cases ho
    exact ih rfl
  | noText | noTextAnyCase | noOne | noFirst | noSecond | present | notAhead | noRule => cases ho

/-- A repetition, from its last position back to its first. It stops where the expression fails or reads
nothing. -/
theorem Gives.star_induction {e : Peg} {P : Cursor → Cursor → Prop}
    (stop : ∀ cur, Gives e cur none ∨
      (∃ mid xs, Gives e cur (some (mid, xs)) ∧ ¬ cur.offset < mid.offset) → P cur cur)
    (more : ∀ cur mid last xs, Gives e cur (some (mid, xs)) → P mid last → P cur last)
    (h : Gives (.star e) cur (some (last, nodes))) :
    P cur last := by
  generalize hs : Peg.star e = s at h
  generalize ho : some (last, nodes) = outcome at h
  induction h generalizing last nodes with
  | again he _ _ _ ih =>
    cases hs
    cases ho
    exact more _ _ _ _ he (ih rfl rfl)
  | noMore he =>
    cases hs
    cases ho
    exact stop _ (Or.inl he)
  | stuck he hsame =>
    cases hs
    cases ho
    exact stop _ (Or.inr ⟨_, _, he, hsame⟩)
  | _ => cases hs

/-! ### Expressions without rules -/

/-- Whether an expression can leave a node. What a lookahead matches leaves none. -/
def isSilent : Peg → Bool
  | .rule _ => false
  | .seq a b | .alt a b => isSilent a && isSilent b
  | .star e => isSilent e
  | _ => true

theorem Gives.nodes_eq_nil {e : Peg} (he : isSilent e)
    (h : Gives e cur (some (last, nodes))) : nodes = [] := by
  generalize ho : some (last, nodes) = outcome at h
  induction h generalizing last nodes with
  | empty | text | textAnyCase | one | noMore | stuck | absent | ahead =>
    cases ho
    rfl
  | seq _ _ iha ihb =>
    rw [isSilent, Bool.and_eq_true] at he
    cases ho
    rw [iha he.1 rfl, ihb he.2 rfl, List.append_nil]
  | alt _ iha =>
    rw [isSilent, Bool.and_eq_true] at he
    cases ho
    exact iha he.1 rfl
  | orElse _ _ _ ihb =>
    rw [isSilent, Bool.and_eq_true] at he
    exact ihb he.2 ho
  | again _ _ _ iha ihs =>
    cases ho
    rw [iha he rfl, ihs he rfl, List.append_nil]
  | rule => cases he
  | noText | noTextAnyCase | noOne | noFirst | noSecond | present | notAhead | noRule => cases ho

end ConfigSandbox.Peg
