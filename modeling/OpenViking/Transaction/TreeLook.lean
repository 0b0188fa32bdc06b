import OpenViking.Transaction.Secure
import OpenViking.Transaction.TreeProtocol

/-!
# How the checks look at another owner's lock file

One owner acquires the tree of a directory while another acquires a path below it.  They write
different lock files: the first finds the other's by a scan of the directory, the second finds the
first's on its way up through the ancestors.  Step by step both follow the protocol of
`TreeProtocol`, with the lock files as registers and the scan, which takes many steps, as one look at
the other's.  Results:

* `watches_checkAncestorsForTree`: on the way up from below the tree the lock file of the tree is read;
* `watches_scanDescendants`: the scan of a directory is a look at a lock file below it.
-/

namespace OpenViking.Transaction

open PathLockEngine TreeProtocol

variable {ι : Type} [LinearOrder ι]

/-! ## Following the protocol -/

/-- An owner with the lock file that it writes. -/
structure Side (ι : Type) where
  owner : ι
  file : Path
  lockType : LockType

/-- The time stamp in a lock file. -/
def Sys.register (s : Sys ι) (f : Path) : Option ℕ := (s.token f).map Token.ts

/-- The token is one that the owner of the side writes to its file. -/
def Side.Writes (p : Side ι) (f : Path) (t : Token ι) : Prop :=
  f = p.file ∧ t.owner = p.owner ∧ t.lockType = p.lockType

/-- The directory is there, and no lock files but those of the two sides. -/
structure Duel (dir : Path) (p q : Side ι) (s : Sys ι) : Prop where
  clock : 0 < s.clock
  isDir : s.fs.isDir dir
  tokens : ∀ f t, s.token f = some t → 0 < t.ts ∧ (p.Writes f t ∨ q.Writes f t)

/-- No lock file is older than `lock_expire` when its age is looked at. -/
def Fresh (E : PathLockEngine) (s : Sys ι) (c : Call) (n : ℕ) : Prop :=
  match c with
  | .readAt f => ∀ t ∈ s.token f, s.clock + n - t.ts ≤ E.lockExpire
  | _ => True

instance (E : PathLockEngine) (s : Sys ι) (c : Call) (n : ℕ) : Decidable (Fresh E s c n) := by
  unfold Fresh
  split <;> infer_instance

/-- The call writes, if anything, a token of the side. -/
def Side.Legit (p : Side ι) : Call → Prop
  | .write f ts lockType => f = p.file ∧ lockType = p.lockType ∧ 0 < ts
  | _ => True

/-- The party that a side is, when it is at `pc`. -/
def Side.party (p : Side ι) (pc : Pc) (s : Sys ι) : Party := ⟨pc, s.register p.file⟩

/-- The program follows the protocol from `pc` on, and ends where `Q` says. -/
def Follows (E : PathLockEngine) (dir : Path) (p q : Side ι) {α : Type} (Q : α → Pc → Prop) :
    Locking ι α → Pc → Prop
  | .ret a, pc => Q a pc
  | .call c k, pc => ∀ s n, Duel dir p q s → Fresh E s c n → (p.party pc s).standing ≠ .bad →
      p.Legit c ∧ ∃ pc', Move p.owner q.owner (s.register q.file) (p.party pc s)
          (p.party pc' (Sys.exec p.owner c s n).2) ((Sys.exec p.owner c s n).2.register q.file) ∧
        Follows E dir p q Q (k (Sys.exec p.owner c s n).1) pc'
  | .stuck, _ => True

namespace Follows

variable {E : PathLockEngine} {dir : Path} {p q : Side ι} {α β : Type} {Q : α → Pc → Prop}

variable {prog : Locking ι α}

theorem mono {Q' : α → Pc → Prop} (hQ : ∀ a pc, Q a pc → Q' a pc) {pc : Pc}
    (h : Follows E dir p q Q prog pc) : Follows E dir p q Q' prog pc := by
  induction prog generalizing pc with
  | ret a => exact hQ a pc h
  | call c k ih =>
    intro s n hd hf hb
    obtain ⟨hlegit, pc', hmove, hnext⟩ := h s n hd hf hb
    exact ⟨hlegit, pc', hmove, ih _ hnext⟩
  | stuck => trivial

theorem bind {Q' : β → Pc → Prop} {f : α → Locking ι β} {pc : Pc}
    (h : Follows E dir p q Q prog pc) (hf : ∀ a pc', Q a pc' → Follows E dir p q Q' (f a) pc') :
    Follows E dir p q Q' (prog >>= f) pc := by
  induction prog generalizing pc with
  | ret a => exact hf a pc h
  | call c k ih =>
    intro s n hd hfr hb
    obtain ⟨hlegit, pc', hmove, hnext⟩ := h s n hd hfr hb
    exact ⟨hlegit, pc', hmove, ih _ hnext⟩
  | stuck => trivial

/-- Rounds that begin where they end, until one has a result. -/
theorem spin {round : Locking ι (Option α)} {start : Pc} (h : Follows E dir p q (fun r pc => match r with
      | none => pc = start | some a => Q a pc) round start) (fuel : ℕ) :
    Follows E dir p q Q (Prog.spin fuel round) start := by
  induction fuel with
  | zero => trivial
  | succ fuel ih =>
    refine h.bind fun r pc hr => ?_
    cases r with
    | none =>
      obtain rfl : pc = start := hr
      exact ih
    | some a => exact hr

/-- A call that changes no lock file may be any move that the registers as they are allow. -/
theorem call_quiet {c : Call} {k : Reply ι c → Locking ι α} {pc : Pc} (hc : Quiet c)
    (h : ∀ s n, Duel dir p q s → Fresh E s c n → (p.party pc s).standing ≠ .bad →
      ∃ pc', Move p.owner q.owner (s.register q.file) (p.party pc s) (p.party pc' s)
          (s.register q.file) ∧ Follows E dir p q Q (k (Sys.exec p.owner c s n).1) pc') :
    Follows E dir p q Q (.call c k) pc := by
  intro s n hd hf hb
  have hsame := Sys.sameLocks_exec hc p.owner s n
  have hreg : ∀ f, (Sys.exec p.owner c s n).2.register f = s.register f := by
    intro f
    rw [Sys.register, hsame.token]
    rfl
  obtain ⟨pc', hmove, hnext⟩ := h s n hd hf hb
  refine ⟨?_, pc', ?_, hnext⟩
  · cases c <;> trivial
  · have hparty : p.party pc' (Sys.exec p.owner c s n).2 = p.party pc' s := by
      rw [Side.party, hreg]
      rfl
    rw [hreg, hparty]
    exact hmove

/-- A program that changes no lock file may stay where it is. -/
theorem quiet (hp : prog.All Quiet) (pc : Pc) : Follows E dir p q (fun _ pc' => pc' = pc) prog pc := by
  induction prog with
  | ret a => rfl
  | call c k ih => exact call_quiet hp.1 fun s n _ _ _ => ⟨pc, .stay _, ih _ (hp.2 _)⟩
  | stuck => trivial

end Follows

/-! ## Looking -/

/-- The two looks at the other's register: before the announcement and after it. -/
inductive Look where
  | first
  | second

namespace Look

/-- Where the look begins, -/
def start : Look → Pc
  | first => .pre
  | second => .posted

/-- where it ends with an empty register, -/
def missed : Look → Pc
  | first => .clear
  | second => .passed

/-- and with a filled one. -/
def seen : Look → Pc
  | first => .saw
  | second => .met

theorem move_missed (look : Look) {me other : ι} {y : Option ℕ} (hy : y = none) (x : Option ℕ) :
    Move me other y ⟨look.start, x⟩ ⟨look.missed, x⟩ y := by
  cases look with
  | first => exact .miss x hy
  | second => exact .pass x hy

theorem move_seen (look : Look) {me other : ι} {y : Option ℕ} (hy : y.isSome) (x : Option ℕ) :
    Move me other y ⟨look.start, x⟩ ⟨look.seen, x⟩ y := by
  cases look with
  | first => exact .see x hy
  | second => exact .meet x hy

end Look

variable {E : PathLockEngine} {dir : Path} {p q : Side ι}

/-- The check sees nothing of the other side. -/
def Blind (E : PathLockEngine) (dir : Path) (p q : Side ι) (prog : Locking ι (Option Path)) : Prop :=
  ∀ pc, Follows E dir p q (fun r pc' => r = none ∧ pc' = pc) prog pc

/-- The check may see the other's lock file, and may leave the look open when it does not. -/
def Passes (E : PathLockEngine) (dir : Path) (p q : Side ι) (prog : Locking ι (Option Path)) : Prop :=
  ∀ look : Look, Follows E dir p q
    (fun r pc => r = none ∧ pc = look.start ∨ r = some q.file ∧ pc = look.seen) prog look.start

/-- The check looks at the other's lock file. -/
def Watches (E : PathLockEngine) (dir : Path) (p q : Side ι) (prog : Locking ι (Option Path)) : Prop :=
  ∀ look : Look, Follows E dir p q
    (fun r pc => r = none ∧ pc = look.missed ∨ r = some q.file ∧ pc = look.seen) prog look.start

variable {prog : Locking ι (Option Path)}

theorem Blind.passes (h : Blind E dir p q prog) : Passes E dir p q prog :=
  fun look => (h look.start).mono fun _ _ hr => .inl hr

theorem blind_none : Blind E dir p q (pure none) := fun _ => ⟨rfl, rfl⟩

variable {a b : Locking ι (Option Path)}

theorem Blind.orElse (ha : Blind E dir p q a) (hb : Blind E dir p q b) : Blind E dir p q (orElse a b) := by
  intro pc
  refine (ha pc).bind ?_
  rintro r pc' ⟨rfl, rfl⟩
  exact hb pc'

theorem Passes.orElse (ha : Passes E dir p q a)
    (hb : Passes E dir p q b) : Passes E dir p q (orElse a b) := by
  intro look
  refine (ha look).bind ?_
  rintro r pc (⟨rfl, rfl⟩ | ⟨rfl, rfl⟩)
  · exact hb look
  · exact .inr ⟨rfl, rfl⟩

theorem Watches.orElse_left (ha : Watches E dir p q a)
    (hb : Blind E dir p q b) : Watches E dir p q (orElse a b) := by
  intro look
  refine (ha look).bind ?_
  rintro r pc (⟨rfl, rfl⟩ | ⟨rfl, rfl⟩)
  · exact (hb look.missed).mono fun _ _ hr => .inl hr
  · exact .inr ⟨rfl, rfl⟩

theorem Watches.orElse_right (ha : Passes E dir p q a)
    (hb : Watches E dir p q b) : Watches E dir p q (orElse a b) := by
  intro look
  refine (ha look).bind ?_
  rintro r pc (⟨rfl, rfl⟩ | ⟨rfl, rfl⟩)
  · exact hb look
  · exact .inr ⟨rfl, rfl⟩

theorem blind_bind {α : Type} {a : Locking ι α} {b : α → Locking ι (Option Path)}
    (ha : a.All Quiet) (hb : ∀ r, Blind E dir p q (b r)) : Blind E dir p q (a >>= b) := by
  intro pc
  refine (Follows.quiet ha pc).bind ?_
  rintro r pc' rfl
  exact hb r pc'

theorem passes_bind {α : Type} {a : Locking ι α} {b : α → Locking ι (Option Path)}
    (ha : a.All Quiet) (hb : ∀ r, Passes E dir p q (b r)) : Passes E dir p q (a >>= b) := by
  intro look
  refine (Follows.quiet ha look.start).bind ?_
  rintro r pc' rfl
  exact hb r look

omit [LinearOrder ι] in
/-- A lock file other than the other side's names no other owner. -/
theorem Duel.owner_eq {s : Sys ι} (hd : Duel dir p q s) {f : Path} (hf : f ≠ q.file) {t : Token ι}
    (ht : s.token f = some t) : t.owner = p.owner := by
  rcases (hd.tokens f t ht).2 with h | h
  · exact h.2.1
  · exact absurd h.1 hf

omit [LinearOrder ι] in
theorem Duel.other_eq (hpq : p.file ≠ q.file) {s : Sys ι} (hd : Duel dir p q s) {t : Token ι}
    (ht : s.token q.file = some t) : t.owner = q.owner ∧ t.lockType = q.lockType := by
  rcases (hd.tokens _ t ht).2 with h | h
  · exact absurd h.1.symm hpq
  · exact h.2

theorem blind_lockedByOther {f : Path} (hf : f ≠ q.file) : Blind E dir p q (lockedByOther p.owner f) := by
  intro pc
  refine Follows.call_quiet trivial fun s n hd _ _ => ⟨pc, .stay _, ?_⟩
  refine ⟨?_, rfl⟩
  cases htoken : s.token f with
  | none => simp [Sys.exec, htoken]
  | some t => simp [Sys.exec, htoken, hd.owner_eq hf htoken]

theorem blind_treeLockedByOther {f : Path} (hf : f ≠ q.file) :
    Blind E dir p q (treeLockedByOther p.owner f) := by
  intro pc
  refine Follows.call_quiet trivial fun s n hd _ _ => ⟨pc, .stay _, ?_⟩
  refine ⟨?_, rfl⟩
  cases htoken : s.token f with
  | none => simp [Sys.exec, htoken]
  | some t => simp [Sys.exec, htoken, hd.owner_eq hf htoken]

/-- The two sides have different owners and lock files. -/
structure Apart (p q : Side ι) : Prop where
  owner : p.owner ≠ q.owner
  file : p.file ≠ q.file

/-- A check that reads the other's lock file and says so when it is there. -/
theorem passes_of_read (k : Option (Token ι) → Option Path)
    (hprog : prog = .call (.read q.file) fun token => .ret (k token)) (hnone : k none = none)
    (hsome : ∀ s t, Duel dir p q s → s.token q.file = some t → k (some t) = some q.file) :
    Passes E dir p q prog ∧ Watches E dir p q prog := by
  subst hprog
  refine ⟨fun look => ?_, fun look => ?_⟩
  · refine Follows.call_quiet trivial fun s n hd _ _ => ?_
    cases htoken : s.token q.file with
    | none =>
      refine ⟨look.start, .stay _, .inl ⟨?_, rfl⟩⟩
      simpa [Sys.exec, htoken] using hnone
    | some t =>
      refine ⟨look.seen, look.move_seen (by simp [Sys.register, htoken]) _, .inr ⟨?_, rfl⟩⟩
      simpa [Sys.exec, htoken] using hsome s t hd htoken
  · refine Follows.call_quiet trivial fun s n hd _ _ => ?_
    cases htoken : s.token q.file with
    | none =>
      refine ⟨look.missed, look.move_missed (by simp [Sys.register, htoken]) _, .inl ⟨?_, rfl⟩⟩
      simpa [Sys.exec, htoken] using hnone
    | some t =>
      refine ⟨look.seen, look.move_seen (by simp [Sys.register, htoken]) _, .inr ⟨?_, rfl⟩⟩
      simpa [Sys.exec, htoken] using hsome s t hd htoken

theorem passes_lockedByOther (hpq : Apart p q) :
    Passes E dir p q (lockedByOther p.owner q.file) ∧ Watches E dir p q (lockedByOther p.owner q.file) := by
  refine passes_of_read _ rfl rfl fun s t hd ht => ?_
  have howner : t.owner ≠ p.owner := by
    rw [(hd.other_eq hpq.file ht).1]
    exact hpq.owner.symm
  exact if_neg howner

theorem passes_treeLockedByOther (hpq : Apart p q) (hq : q.lockType = .tree) :
    Passes E dir p q (treeLockedByOther p.owner q.file) ∧
      Watches E dir p q (treeLockedByOther p.owner q.file) := by
  refine passes_of_read _ rfl rfl fun s t hd ht => ?_
  obtain ⟨howner, htype⟩ := hd.other_eq hpq.file ht
  have htree : t.owner ≠ p.owner ∧ t.lockType = .tree := by
    rw [howner, htype]
    exact ⟨hpq.owner.symm, hq⟩
  exact if_pos htree

/-- The lock file is the other side's, or it shows nothing of it. -/
theorem passes_lockedByOther_any (hpq : Apart p q) (f : Path) :
    Passes E dir p q (lockedByOther p.owner f) := by
  by_cases hf : f = q.file
  · rw [hf]
    exact (passes_lockedByOther hpq).1
  · exact (blind_lockedByOther hf).passes

/-! ## The checks -/

variable {path : Path}

theorem blind_checkExactPathLock (h : q.file ∉ exactFiles E path) :
    Blind E dir p q (E.checkExactPathLock p.owner path) := by
  have hfiles : ∀ f ∈ exactFiles E path, f ≠ q.file := fun f hf heq => h (heq ▸ hf)
  intro pc
  have hstart : Follows E dir p q (fun f pc' => f ∈ exactFiles E path ∧ pc' = pc)
      (E.getExactLockPath path) pc := by
    refine (Follows.quiet (isExistingDirectory_quiet path) pc).bind ?_
    rintro isDir pc' rfl
    split
    · exact ⟨List.mem_cons_self, rfl⟩
    · exact ⟨List.mem_cons_of_mem _ List.mem_cons_self, rfl⟩
  refine hstart.bind ?_
  rintro primary pc' ⟨hprimary, rfl⟩
  dsimp only
  split
  · exact blind_lockedByOther (hfiles _ hprimary) pc'
  · refine (blind_lockedByOther (hfiles _ hprimary)).orElse (blind_lockedByOther ?_) pc'
    exact hfiles _ (List.mem_cons_of_mem _ List.mem_cons_self)

theorem blind_checkAncestorsForTree (h : ∀ a, a <:+ path → a ≠ path → getLockPath a ≠ q.file) :
    Blind E dir p q (checkAncestorsForTree p.owner path) := by
  fun_induction PathLockEngine.checkAncestorsForTree p.owner path with
  | case1 name b r ih =>
    refine (blind_treeLockedByOther ?_).orElse (ih fun a ha hne => ?_)
    · exact h (b :: r) (List.suffix_cons _ _) (Fs.ne_cons_self _ _)
    · refine h a (ha.trans (List.suffix_cons _ _)) ?_
      rintro rfl
      exact absurd ha.length_le (by simp)
  | case2 path => exact blind_none

/-- On the way up from below the tree the lock file of the tree is read. -/
theorem watches_checkAncestorsForTree (hpq : Apart p q) (hq : q.lockType = .tree) {path a : Path}
    (hfile : q.file = getLockPath a) (ha : a <:+ path) (hne : a ≠ path) (hnil : a ≠ []) :
    Watches E dir p q (checkAncestorsForTree p.owner path) := by
  fun_induction PathLockEngine.checkAncestorsForTree p.owner path with
  | case1 name b r ih =>
    have hsuf : a <:+ b :: r := (List.suffix_cons_iff.1 ha).resolve_left hne
    by_cases heq : a = b :: r
    · -- the other ancestors are above the tree
      rw [← heq, ← hfile]
      refine (passes_treeLockedByOther hpq hq).2.orElse_left ?_
      refine blind_checkAncestorsForTree fun c hc hcne => ?_
      rw [hfile]
      exact fun h => hcne (getLockPath_inj h)
    · refine .orElse_right ?_ (ih hsuf heq)
      refine (blind_treeLockedByOther ?_).passes
      rw [hfile]
      exact fun h => heq (getLockPath_inj h).symm
  | case2 path hpath =>
    obtain ⟨pre, rfl⟩ := ha
    obtain ⟨z, a, rfl⟩ := List.exists_cons_of_ne_nil hnil
    rcases pre with _ | ⟨x, _ | ⟨y, pre⟩⟩
    · exact absurd rfl hne
    · exact absurd rfl (hpath x z a)
    · exact absurd rfl (hpath x y (pre ++ z :: a))

theorem visible_of_not_skipped {name : String} (h : ¬ (name = "" ∨ name = "." ∨ name = ".."))
    (hres : ¬ isReserved name = true) : Visible name := by
  simp only [not_or] at h
  exact ⟨h.1, h.2.1, h.2.2, by simpa using hres⟩

variable {scan : Path → Locking ι (Option Path)}

/-- Entries that do not lead to the other's lock file show nothing of it. -/
theorem blind_scanEntries (hscan : ∀ sub, ¬ Scanned sub q.file → Blind E dir p q (scan sub))
    (entries : List (String × Bool)) (h : ¬ LeadsTo path entries q.file) :
    Blind E dir p q (scanEntries p.owner scan path entries) := by
  have htail : ∀ {e entries}, ¬ LeadsTo path (e :: entries) q.file →
      ¬ LeadsTo path entries q.file := by
    intro e entries hno hlead
    refine hno ?_
    cases hlead with
    | reserved hmem hname hf => exact .reserved (List.mem_cons_of_mem _ hmem) hname hf
    | lock hmem hname hf => exact .lock (List.mem_cons_of_mem _ hmem) hname hf
    | deeper hmem hname hf => exact .deeper (List.mem_cons_of_mem _ hmem) hname hf
  fun_induction PathLockEngine.scanEntries p.owner scan path entries with
  | case1 => exact blind_none
  | case2 name isDir entries _ ih => exact ih (htail h)
  | case3 name isDir entries _ hres ih =>
    refine (blind_lockedByOther fun heq => ?_).orElse (ih (htail h))
    exact h (.reserved List.mem_cons_self hres heq.symm)
  | case4 name entries hskip hres ih =>
    have hvis : Visible name := visible_of_not_skipped hskip hres
    refine (blind_lockedByOther fun heq => ?_).orElse ((hscan _ fun hsub => ?_).orElse (ih (htail h)))
    · exact h (.lock List.mem_cons_self hvis heq.symm)
    · exact h (.deeper List.mem_cons_self hvis hsub)
  | case5 name isDir entries _ _ _ ih => exact ih (htail h)

theorem blind_scanDescendants (depth : ℕ) (h : ¬ Scanned path q.file) :
    Blind E dir p q (scanDescendants p.owner depth path) := by
  induction depth generalizing path with
  | zero => exact fun _ => trivial
  | succ depth ih =>
    refine blind_bind (isExistingDirectory_quiet path) fun isDir => ?_
    split
    · refine blind_bind (.perform trivial) fun entries => ?_
      refine blind_scanEntries (fun sub hsub => ih hsub) entries fun hlead => h ?_
      cases hlead with
      | reserved _ hname hf =>
        rw [hf]
        exact .reserved hname
      | lock _ hname hf =>
        rw [hf]
        exact .lock hname
      | deeper _ hname hf => exact .deeper hname hf
    · exact blind_none

theorem passes_scanEntries (hpq : Apart p q)
    (hscan : ∀ sub, Passes E dir p q (scan sub)) (path : Path) (entries : List (String × Bool)) :
    Passes E dir p q (scanEntries p.owner scan path entries) := by
  fun_induction PathLockEngine.scanEntries p.owner scan path entries with
  | case1 => exact blind_none.passes
  | case2 name isDir entries _ ih => exact ih
  | case3 name isDir entries _ _ ih => exact (passes_lockedByOther_any hpq _).orElse ih
  | case4 name entries _ _ ih =>
    exact (passes_lockedByOther_any hpq _).orElse ((hscan _).orElse ih)
  | case5 name isDir entries _ _ _ ih => exact ih

theorem passes_scanDescendants (hpq : Apart p q) (depth : ℕ) (path : Path) :
    Passes E dir p q (scanDescendants p.owner depth path) := by
  induction depth generalizing path with
  | zero => exact fun _ => trivial
  | succ depth ih =>
    refine passes_bind (isExistingDirectory_quiet path) fun isDir => ?_
    split
    · exact passes_bind (.perform trivial) fun entries => passes_scanEntries hpq ih path entries
    · exact blind_none.passes

/-- Entries that lead to the other's lock file.  The look ends at the last place where the scan reads
the file, and at the other places it is left open. -/
theorem watches_scanEntries (hpq : Apart p q) (hpass : ∀ sub, Passes E dir p q (scan sub))
    (hblind : ∀ sub, ¬ Scanned sub q.file → Blind E dir p q (scan sub))
    (hwatch : ∀ sub, Scanned sub q.file → Watches E dir p q (scan sub))
    (entries : List (String × Bool)) (h : LeadsTo path entries q.file) :
    Watches E dir p q (scanEntries p.owner scan path entries) := by
  fun_induction PathLockEngine.scanEntries p.owner scan path entries with
  | case1 =>
    cases h with
    | reserved hmem => cases hmem
    | lock hmem => cases hmem
    | deeper hmem => cases hmem
  | case2 name isDir entries hskip ih =>
    rcases h.cons_cases with h | ⟨hres, -⟩ | ⟨-, hvis, -⟩
    · exact ih h
    · rw [not_isReserved_of_skipped hskip] at hres
      cases hres
    · exact absurd hskip (by simp [hvis.1, hvis.2.1, hvis.2.2.1])
  | case3 name isDir entries _ hres ih =>
    by_cases htail : LeadsTo path entries q.file
    · exact .orElse_right (passes_lockedByOther_any hpq _) (ih htail)
    rcases h.cons_cases with h | ⟨-, heq⟩ | ⟨-, hvis, -⟩
    · exact absurd h htail
    · rw [← heq]
      exact (passes_lockedByOther hpq).2.orElse_left (blind_scanEntries hblind entries htail)
    · rw [hvis.2.2.2] at hres
      cases hres
  | case4 name entries _ hres ih =>
    by_cases htail : LeadsTo path entries q.file
    · exact .orElse_right (passes_lockedByOther_any hpq _) (.orElse_right (hpass _) (ih htail))
    have hrest : Blind E dir p q (scanEntries p.owner scan path entries) :=
      blind_scanEntries hblind entries htail
    by_cases hsub : Scanned (name :: path) q.file
    · exact .orElse_right (passes_lockedByOther_any hpq _) ((hwatch _ hsub).orElse_left hrest)
    rcases h.cons_cases with h | ⟨hres', -⟩ | ⟨-, -, heq | hbelow⟩
    · exact absurd h htail
    · exact absurd hres' hres
    · rw [← heq]
      exact (passes_lockedByOther hpq).2.orElse_left ((hblind _ hsub).orElse hrest)
    · exact absurd hbelow hsub
  | case5 name isDir entries _ hres hdir ih =>
    rcases h.cons_cases with h | ⟨hres', -⟩ | ⟨hdir', -⟩
    · exact ih h
    · exact absurd hres' hres
    · exact absurd hdir' hdir

/-- The scan of a directory looks at the other's lock file wherever it can get to it. -/
theorem watches_scanDescendants (hpq : Apart p q) (depth : ℕ)
    (h : Scanned path q.file) : Watches E dir p q (scanDescendants p.owner depth path) := by
  induction depth generalizing path with
  | zero => exact fun _ => trivial
  | succ depth ih =>
    intro look
    refine Follows.call_quiet trivial fun s n hd _ _ => ?_
    by_cases hdir : s.fs.isDir path
    · refine ⟨look.start, .stay _, ?_⟩
      have hreply : ((Sys.exec p.owner (.stat path) s n).1 == some true) = true := by
        rcases hdir with rfl | hdir
        · simp [Sys.exec]
        · by_cases hnil : path = [] <;> simp [Sys.exec, hnil, hdir]
      show Follows E dir p q _ (if ((Sys.exec p.owner (.stat path) s n).1 == some true) = true then _
        else _) _
      rw [if_pos hreply]
      refine Follows.call_quiet trivial fun s n hd _ _ => ?_
      by_cases hlead : LeadsTo path (s.fs.entries path) q.file
      · refine ⟨look.start, .stay _, ?_⟩
        exact watches_scanEntries hpq (passes_scanDescendants hpq depth)
          (fun sub hsub => blind_scanDescendants depth hsub) (fun sub hsub => ih hsub) _ hlead look
      · have hnone : s.token q.file = none := by
          by_contra htoken
          exact hlead (h.leadsTo s.fs htoken)
        refine ⟨look.missed, look.move_missed (by simp [Sys.register, hnone]) _, ?_⟩
        exact (blind_scanEntries (fun sub hsub => blind_scanDescendants depth hsub) _ hlead
          look.missed).mono fun _ _ hr => .inl hr
    · -- nothing is below a path that is not a directory
      have hnone : s.token q.file = none :=
        s.fs.token_eq_none_of_not_isDir hdir h.suffix.1 h.suffix.2
      refine ⟨look.missed, look.move_missed (by simp [Sys.register, hnone]) _, ?_⟩
      have hreply : ((Sys.exec p.owner (.stat path) s n).1 == some true) = false := by
        have hnil : path ≠ [] := fun hnil => hdir (.inl hnil)
        have hget : s.fs.nodes.get path ≠ some .dir := fun hget => hdir (.inr hget)
        cases hnode : s.fs.nodes.get path with
        | none => simp [Sys.exec, hnil, hnode]
        | some node => simpa [Sys.exec, hnil, hnode] using hget
      show Follows E dir p q _ (if ((Sys.exec p.owner (.stat path) s n).1 == some true) = true then _
        else pure none) _
      rw [hreply]
      exact .inl ⟨rfl, rfl⟩

end OpenViking.Transaction
