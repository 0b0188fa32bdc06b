import OpenViking.Transaction.TreeLook

/-!
# The acquires follow the protocol

With the lock files as registers, the rounds of `acquire_exact_path` and `acquire_tree` are rounds of
the protocol of `TreeProtocol`, for an owner whose checks look at the other's lock file.  Results:

* `exactRound_follows`, `treeRound_follows`: a round is one of the protocol;
* `rounds_follows`: so do the rounds together.
-/

namespace OpenViking.Transaction

open PathLockEngine TreeProtocol

variable {ι : Type} [LinearOrder ι] {E : PathLockEngine} {dir : Path} {p q : Side ι}

/-! ## The own lock file -/

variable {pc pc' : Pc}

omit [LinearOrder ι] in
/-- Past its announcement a party has its register filled. -/
theorem register_isSome (hpc : standingOf pc false = .bad) {s : Sys ι}
    (hb : (p.party pc s).standing ≠ .bad) : ∃ t, s.token p.file = some t := by
  cases htoken : s.token p.file with
  | some t => exact ⟨t, rfl⟩
  | none =>
    have hparty : (p.party pc s).standing = standingOf pc false := by
      simp [Party.standing, Side.party, Sys.register, htoken]
    exact absurd (hparty.trans hpc) hb

/-- A party that is past its announcement finds its token, and may make a move meanwhile. -/
theorem isLockOwnedBy_follows (hpq : Apart p q) (hpc : standingOf pc false = .bad)
    (hmove : ∀ x y, Move p.owner q.owner y ⟨pc, x⟩ ⟨pc', x⟩ y) :
    Follows E dir p q (fun r pc'' => r = true ∧ pc'' = pc') (isLockOwnedBy p.owner p.file) pc := by
  refine Follows.call_quiet trivial fun s n hd _ hb => ⟨pc', hmove _ _, ?_⟩
  obtain ⟨t, ht⟩ := register_isSome hpc hb
  have howner : t.owner = p.owner := hd.owner_eq hpq.file ht
  refine ⟨?_, rfl⟩
  simp [Sys.exec, ht, howner]

/-- A party that has taken its announcement back finds nothing of its own. -/
theorem isLockOwnedBy_gone :
    Follows E dir p q (fun r pc => r = false ∧ pc = .gone) (isLockOwnedBy p.owner p.file) .gone := by
  refine Follows.call_quiet trivial fun s n hd _ hb => ⟨.gone, .stay _, ?_⟩
  have hnone : s.token p.file = none := by
    cases htoken : s.token p.file with
    | none => rfl
    | some t => exact absurd (by simp [Party.standing, Side.party, Sys.register, htoken]; rfl) hb
  refine ⟨?_, rfl⟩
  simp [Sys.exec, hnone]

theorem register_rm (s : Sys ι) (f g : Path) (i : ι) (n : ℕ) :
    (Sys.exec i (.rm f) s n).2.register g = if g = f then none else s.register g := by
  unfold Sys.register
  rw [Sys.token_exec, Sys.tokenAfter]
  split_ifs <;> rfl

/-- The party empties its register. -/
theorem removeLockFile_follows (hpq : Apart p q)
    (hmove : ∀ x y, Move p.owner q.owner y ⟨pc, x⟩ ⟨pc', none⟩ y) :
    Follows E dir p q (fun _ pc'' => pc'' = pc') (removeLockFile p.file) pc := by
  intro s n hd _ _
  refine ⟨trivial, pc', ?_, rfl⟩
  rw [Side.party, Side.party, register_rm, register_rm, if_pos rfl, if_neg hpq.file.symm]
  exact hmove _ _

theorem removeOwned_follows (hpq : Apart p q) (hpc : standingOf pc false = .bad)
    (hmove : ∀ x y, Move p.owner q.owner y ⟨pc, x⟩ ⟨pc', none⟩ y) :
    Follows E dir p q (fun _ pc'' => pc'' = pc') (removeOwned p.owner p.file) pc := by
  refine (isLockOwnedBy_follows hpq hpc fun x y => .stay _).bind ?_
  rintro r pc'' ⟨rfl, rfl⟩
  exact removeLockFile_follows hpq hmove

theorem removeOwned_gone :
    Follows E dir p q (fun _ pc => pc = .gone) (removeOwned p.owner p.file) .gone := by
  refine isLockOwnedBy_gone.bind ?_
  rintro r pc ⟨rfl, rfl⟩
  rfl

/-- The party announces itself. -/
theorem createLockFile_follows (hpq : Apart p q) :
    Follows E dir p q (fun r pc => r = true → pc = .posted) (createLockFile p.file p.lockType)
      .clear := by
  have htime : Follows E dir p q (fun ts pc => 0 < ts ∧ pc = .clear)
      (Agfs.timeNs : Locking ι ℕ) .clear := by
    refine Follows.call_quiet trivial fun s n hd _ _ => ⟨.clear, .stay _, ?_, rfl⟩
    exact Nat.add_pos_left hd.clock n
  refine htime.bind ?_
  rintro ts pc ⟨hts, rfl⟩ s n hd _ _
  refine ⟨⟨rfl, rfl, hts⟩, ?_⟩
  by_cases hw : s.fs.Writable p.file
  · rw [Sys.exec_write hw]
    refine ⟨.posted, ?_, fun _ => rfl⟩
    have hmine : (s.written p.owner p.file ts p.lockType).register p.file = some ts := by
      rw [Sys.register, Sys.token_written hw, if_pos rfl]
      rfl
    have htheirs : (s.written p.owner p.file ts p.lockType).register q.file = s.register q.file := by
      rw [Sys.register, Sys.token_written hw, if_neg hpq.file.symm]
      rfl
    rw [Side.party, Side.party, hmine, htheirs]
    exact .post _ _
  · rw [Sys.exec_write_of_not hw]
    exact ⟨.clear, .stay _, fun h => by cases h⟩

/-! ## The other's lock file -/

/-- What a round leaves: with no result it is back at the first look, with `True` it has won. -/
def RoundEnds (r : Option Bool) (pc : Pc) : Prop :=
  match r with
  | none => pc = .pre
  | some b => b = true → pc = .won

theorem waitRound_follows (wait : Wait) (hmove : ∀ x y, Move p.owner q.owner y ⟨pc, x⟩ ⟨.pre, x⟩ y) :
    Follows E dir p q RoundEnds (waitRound wait) pc := by
  refine Follows.call_quiet trivial fun s n hd _ _ => ⟨.pre, hmove _ _, ?_⟩
  show Follows E dir p q RoundEnds (if decide (n ≠ 0) = true then pure (some false) else pure none) _
  split
  · exact fun h => by cases h
  · rfl

/-- Where no lock file is too old, one is stale only when it is gone. -/
theorem isLockStale_follows :
    Follows E dir p q (fun r pc => r = true ∧ pc = .rmOther ∨ r = false ∧ pc = .pre)
      (E.isLockStale q.file) .saw := by
  refine Follows.call_quiet trivial fun s n hd hfresh _ => ?_
  cases htoken : s.token q.file with
  | none =>
    refine ⟨.rmOther, .stale _ (by simp [Sys.register, htoken]), .inl ⟨?_, rfl⟩⟩
    simp [Sys.exec, htoken]
  | some t =>
    refine ⟨.pre, .wait _ (by simp [Sys.register, htoken]), .inr ⟨?_, rfl⟩⟩
    have hage : s.clock + n - t.ts ≤ E.lockExpire := hfresh t htoken
    have hts : t.ts ≠ 0 := (hd.tokens _ t htoken).1.ne'
    simp [Sys.exec, htoken, hts, hage]

/-- The other's lock file was in the way: it is removed when it is gone, and waited for otherwise. -/
theorem awaitConflict_follows (hpq : Apart p q) :
    Follows E dir p q RoundEnds (E.awaitConflict q.file) .saw := by
  refine isLockStale_follows.bind ?_
  rintro r pc (⟨rfl, rfl⟩ | ⟨rfl, rfl⟩)
  · intro s n hd _ _
    refine ⟨trivial, .pre, ?_, rfl⟩
    rw [Side.party, Side.party, register_rm, register_rm, if_pos rfl, if_neg hpq.file]
    exact .rmOther _
  · exact waitRound_follows .before fun x y => .stay _

/-- The livelock guard: the younger of two announcements is to be taken back. -/
theorem mustBackOff_follows (hpq : Apart p q) :
    Follows E dir p q (fun r pc => r = true ∧ pc = .backOff ∨ r = false ∧ pc = .kept)
      (mustBackOff p.owner p.file q.file) .met := by
  refine Follows.call_quiet trivial fun s n hd _ _ => ?_
  cases htoken : s.token q.file with
  | none =>
    refine ⟨.kept, .noRead _ (by simp [Sys.register, htoken]), ?_⟩
    simp only [Sys.exec, htoken]
    exact .inr ⟨rfl, rfl⟩
  | some their =>
    refine ⟨.theirs their.ts, .read _ _ (by simp [Sys.register, htoken]), ?_⟩
    have howner : their.owner = q.owner := (hd.other_eq hpq.file htoken).1
    simp only [Sys.exec, htoken]
    refine Follows.call_quiet trivial fun s' n' hd' _ hb' => ?_
    obtain ⟨my, hmy⟩ := register_isSome (by rfl) hb'
    have hparty : ∀ pc, p.party pc s' = ⟨pc, some my.ts⟩ := by
      intro pc
      rw [Side.party, Sys.register, hmy]
      rfl
    simp only [hparty, Sys.exec, hmy, howner]
    by_cases hold : Older their.ts q.owner my.ts p.owner
    · exact ⟨.backOff, .younger _ _ hold, .inl ⟨decide_eq_true hold, rfl⟩⟩
    · exact ⟨.kept, .older _ _ hold, .inr ⟨decide_eq_false hold, rfl⟩⟩

/-! ## Rounds -/

/-- The deadline of a round: it goes on to the next one, or cleans up and fails. -/
theorem deadline_follows (wait : Wait) {cleanup : Locking ι Unit} {pcLate : Pc}
    (hagain : ∀ x y, Move p.owner q.owner y ⟨pc, x⟩ ⟨.pre, x⟩ y)
    (hlate : ∀ x y, Move p.owner q.owner y ⟨pc, x⟩ ⟨pcLate, x⟩ y)
    (hclean : Follows E dir p q (fun _ _ => True) cleanup pcLate) :
    Follows E dir p q RoundEnds (do
      if ← Agfs.deadline wait then
        cleanup
        pure (some false)
      else pure none) pc := by
  refine Follows.call_quiet trivial fun s n hd _ _ => ?_
  by_cases hn : n = 0
  · refine ⟨.pre, hagain _ _, ?_⟩
    subst hn
    rfl
  · refine ⟨pcLate, hlate _ _, ?_⟩
    simp only [Sys.exec, ne_eq, hn, not_false_eq_true, decide_true]
    refine hclean.bind fun _ pc' _ => ?_
    exact fun h => by cases h

/-- After a conflict with the token written: first the livelock guard, which may take the announcement
back, then the deadline. -/
theorem exactBackOff_follows (hpq : Apart p q) :
    Follows E dir p q RoundEnds (exactBackOff p.owner p.file q.file) .met := by
  refine (mustBackOff_follows hpq).bind ?_
  rintro r pc (⟨rfl, rfl⟩ | ⟨rfl, rfl⟩)
  · refine (removeOwned_follows hpq (by rfl) fun x y => .backOff x).bind ?_
    rintro _ pc rfl
    exact deadline_follows _ (fun x y => .goneAgain x) (fun x y => .stay _)
      (removeOwned_gone.mono fun _ _ _ => trivial)
  · refine deadline_follows _ (fun x y => .again x) (fun x y => .late x) ?_
    exact (removeOwned_follows hpq (by rfl) fun x y => .lose x).mono fun _ _ _ => trivial

theorem treeBackOff_follows (hpq : Apart p q) :
    Follows E dir p q RoundEnds (treeBackOff p.owner p.file q.file) .met := by
  refine (mustBackOff_follows hpq).bind ?_
  rintro r pc (⟨rfl, rfl⟩ | ⟨rfl, rfl⟩)
  · refine (removeLockFile_follows hpq fun x y => .backOff x).bind ?_
    rintro _ pc rfl
    have hclean : Follows E dir p q (fun _ _ => True) (pure ()) .gone := trivial
    exact deadline_follows _ (fun x y => .goneAgain x) (fun x y => .stay _) hclean
  · refine deadline_follows _ (fun x y => .again x) (fun x y => .late x) ?_
    exact (removeLockFile_follows hpq fun x y => .lose x).mono fun _ _ _ => trivial

/-- The token is there still: the round has won. -/
theorem verify_follows (hpq : Apart p q) : Follows E dir p q RoundEnds (verify p.owner p.file) .passed := by
  refine (isLockOwnedBy_follows hpq (by rfl) fun x y => .win x).bind ?_
  rintro r pc ⟨rfl, rfl⟩
  exact fun _ => rfl

/-- A round of `acquire_exact_path`, whose checks look at the other's lock file. -/
theorem exactRound_follows (hpq : Apart p q) (htype : p.lockType = .exact) {path : Path}
    (hbefore : Watches E dir p q (E.exactConflictBefore p.owner path p.file))
    (hafter : Watches E dir p q (exactConflictAfter p.owner path p.file)) :
    Follows E dir p q RoundEnds (E.exactRound p.owner path p.file) .pre := by
  refine (hbefore .first).bind ?_
  rintro r pc (⟨rfl, rfl⟩ | ⟨rfl, rfl⟩)
  · refine (Follows.quiet (ensureParent_quiet path p.file) _).bind ?_
    rintro made pc rfl
    cases made with
    | false => exact fun h => by cases h
    | true =>
      have hcreate : Follows E dir p q (fun r pc => r = true → pc = .posted)
          (createLockFile p.file .exact) .clear := htype ▸ createLockFile_follows hpq
      refine hcreate.bind fun created pc hpc => ?_
      cases created with
      | false => exact fun h => by cases h
      | true =>
        obtain rfl := hpc rfl
        refine (isLockOwnedBy_follows hpq (by rfl) fun x y => .stay _).bind ?_
        rintro owned pc ⟨rfl, rfl⟩
        refine (hafter .second).bind ?_
        rintro r pc (⟨rfl, rfl⟩ | ⟨rfl, rfl⟩)
        · exact verify_follows hpq
        · exact exactBackOff_follows hpq
  · exact awaitConflict_follows hpq

/-- A round of `acquire_tree`, whose checks look at the other's lock file. -/
theorem treeRound_follows (hpq : Apart p q) (htype : p.lockType = .tree) {path : Path}
    (hbefore : Watches E dir p q (E.treeConflictBefore p.owner path p.file))
    (hafter : Watches E dir p q (E.treeConflictAfter p.owner path)) :
    Follows E dir p q RoundEnds (E.treeRound p.owner path p.file) .pre := by
  refine (hbefore .first).bind ?_
  rintro r pc (⟨rfl, rfl⟩ | ⟨rfl, rfl⟩)
  · refine (Follows.quiet (ensureDirectoryExists_quiet path) _).bind ?_
    rintro made pc rfl
    cases made with
    | false => exact fun h => by cases h
    | true =>
      have hcreate : Follows E dir p q (fun r pc => r = true → pc = .posted)
          (createLockFile p.file .tree) .clear := htype ▸ createLockFile_follows hpq
      refine hcreate.bind fun created pc hpc => ?_
      cases created with
      | false => exact fun h => by cases h
      | true =>
        obtain rfl := hpc rfl
        refine (hafter .second).bind ?_
        rintro r pc (⟨rfl, rfl⟩ | ⟨rfl, rfl⟩)
        · exact verify_follows hpq
        · exact treeBackOff_follows hpq
  · exact awaitConflict_follows hpq

/-- The rounds of an acquire: when it returns `True`, it has won. -/
theorem rounds_follows {round : Locking ι (Option Bool)}
    (h : Follows E dir p q RoundEnds round .pre) (locks : List Path) :
    Follows E dir p q (fun r pc => r.1 = true → pc = .won) (E.rounds locks p.file round) .pre := by
  have hspin : Follows E dir p q (fun b pc => b = true → pc = .won) (Prog.spin E.fuel round) .pre :=
    Follows.spin (h.mono fun r pc hr => by cases r <;> exact hr) E.fuel
  refine hspin.bind fun b pc hpc => ?_
  cases b with
  | false => exact fun h => by cases h
  | true => exact fun _ => hpc rfl

end OpenViking.Transaction
