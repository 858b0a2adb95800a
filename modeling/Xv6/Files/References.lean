import Mathlib.Data.Fintype.Prod
import Mathlib.Tactic.Abel
import Xv6.Files.Table

/-!
# Reference counts of files and inodes

The surplus of a file or an inode is its reference count minus what points to it. `Moves` says by how much
a function changes the surpluses; a whole call changes neither.
-/

namespace Xv6.Files

open Function (update)
open Proc Vm Steps Refs

variable {m m' m'' : Machine} {own : Option Slot} {cur np : Slot} {f : Fin NFILE}
  {ip : Fin NINODE} {fd : Fin NOFILE}

def fileSurplus (m : Machine) : Fin NFILE → ℤ := (fun f => (m.file f).ref) - count m.ofile

def inodeSurplus (m : Machine) : Fin NINODE → ℤ :=
  (fun ip => (m.inode ip).ref) - count m.cwd - count fun f => (m.file f).type.ip

/-- A file without references is of no type. -/
def Closed (m : Machine) : Prop := ∀ f, (m.file f).ref = 0 → (m.file f).type = .none

/-- The surpluses grow by `df` and `di`. Of the kernel only the memory changes, and only `own`
gets or loses descriptors or its directory. -/
structure Moves (own : Option Slot) (m m' : Machine) (df : Fin NFILE → ℤ) (di : Fin NINODE → ℤ) :
    Prop where
  files : fileSurplus m' = fileSurplus m + df
  inodes : inodeSurplus m' = inodeSurplus m + di
  closed : Closed m → Closed m'
  kernel : m'.k = { m.k with mem := m'.k.mem }
  others : ∀ p, some p ≠ own → (∀ fd, m'.ofile (p, fd) = m.ofile (p, fd)) ∧ m'.cwd p = m.cwd p

namespace Moves

variable {df df' : Fin NFILE → ℤ} {di di' : Fin NINODE → ℤ}

theorem refl (m : Machine) : Moves own m m 0 0 :=
  ⟨by simp, by simp, id, rfl, fun _ _ => ⟨fun _ => rfl, rfl⟩⟩

theorem trans (first : Moves own m m' df di) (second : Moves own m' m'' df' di') :
    Moves own m m'' (df + df') (di + di') where
  files := by rw [second.files, first.files, add_assoc]
  inodes := by rw [second.inodes, first.inodes, add_assoc]
  closed := second.closed ∘ first.closed
  kernel := by
    rw [second.kernel, first.kernel]
  others p other :=
    ⟨fun fd => ((second.others p other).1 fd).trans ((first.others p other).1 fd),
      (second.others p other).2.trans (first.others p other).2⟩

theorem congr (moves : Moves own m m' df di) (files : df = df') (inodes : di = di') :
    Moves own m m' df' di' := files ▸ inodes ▸ moves

theorem widen (moves : Moves none m m' df di) : Moves own m m' df di :=
  { moves with others := fun p _ => moves.others p (by simp) }

theorem state (moves : Moves own m m' df di) : m'.k.state = m.k.state := by
  rw [moves.kernel]

theorem ofile (moves : Moves none m m' df di) : m'.ofile = m.ofile :=
  funext fun (p, fd) => (moves.others p (by simp)).1 fd

theorem cwd (moves : Moves none m m' df di) : m'.cwd = m.cwd :=
  funext fun p => (moves.others p (by simp)).2

end Moves

/-! ### Inodes -/

theorem moves_inode (m : Machine) (ip : Fin NINODE) (e : Inode) :
    Moves none m { m with inode := update m.inode ip e } 0
      (fun i => (e.ref - (m.inode ip).ref) * mark (some ip) i) where
  files := by simp [fileSurplus]
  inodes := by
    funext i
    by_cases same : i = ip
    · subst same
      simp [inodeSurplus, mark]
      omega
    · simp [inodeSurplus, mark, same, Ne.symm same]
  closed := id
  kernel := rfl
  others _ _ := ⟨fun _ => rfl, rfl⟩

theorem addRef_moves (m : Machine) (ip : Fin NINODE) (n : Int) :
    Moves none m (addRef m ip n) 0 (fun i => n * mark (some ip) i) := by
  refine (moves_inode m ip _).congr rfl ?_
  funext i
  simp

theorem iput_moves (m : Machine) (ip : Fin NINODE) : Moves none m (iput m ip) 0 (-mark (some ip)) := by
  refine (addRef_moves m ip (-1)).congr rfl ?_
  funext i
  simp

theorem iget_moves {inum : Nat} (ran : iget m inum = .ok (ip, m')) :
    Moves none m m' 0 (mark (some ip)) := by
  unfold iget at ran
  split at ran
  · cases ran
    refine (moves_inode m ip _).congr rfl ?_
    funext i
    simp
  · split at ran
    next free =>
      cases ran
      have zero := List.find?_some free
      simp only [decide_eq_true_eq] at zero
      refine (moves_inode m ip _).congr rfl ?_
      funext i
      simp [zero]
    · cases ran

theorem idup_moves {x : Option (Fin NINODE)} (ran : idup m x = .ok (ip, m')) :
    x = some ip ∧ Moves none m m' 0 (mark (some ip)) := by
  cases x with
  | none => cases ran
  | some jp =>
    cases ran
    refine ⟨rfl, (addRef_moves m ip 1).congr rfl ?_⟩
    funext i
    simp

theorem lookups_moves {found : List Nat} {start last : Fin NINODE × Machine}
    (held : Moves none m start.2 0 (mark (some start.1)))
    (ran : found.foldlM lookup start = .ok last) : Moves none m last.2 0 (mark (some last.1)) := by
  refine foldlM_ok (P := fun s : Fin NINODE × Machine => Moves none m s.2 0 (mark (some s.1)))
    (fun s inum s' held round => ?_) held ran
  obtain ⟨⟨next, m₁⟩, got, round⟩ := bind_ok round
  cases round
  exact ((held.trans (iget_moves got)).trans (iput_moves m₁ s.1)).congr (by abel) (by abel)

/-- `namex` hands over a reference to the inode it returns. -/
theorem namex_moves {path : Path} {r : Option (Fin NINODE)} (ran : namex m cur path = .ok (r, m')) :
    Moves none m m' 0 (mark r) := by
  unfold namex at ran
  obtain ⟨⟨jp, m₁⟩, start, ran⟩ := bind_ok ran
  obtain ⟨⟨ip, m₂⟩, walked, ran⟩ := bind_ok ran
  have held : Moves none m m₁ 0 (mark (some jp)) := by
    unfold startDir at start
    split at start
    · exact iget_moves start
    · exact (idup_moves start).2
  have last := lookups_moves held walked
  simp only at ran
  split at ran
  · cases ran
    exact last
  · cases ran
    exact (last.trans (iput_moves m₂ ip)).congr (by abel) (by simp)

theorem create_moves {path : Path} {entry : Entry} {r : Option (Fin NINODE)}
    (ran : create m cur path entry = .ok (r, m')) : Moves none m m' 0 (mark r) := by
  unfold create at ran
  obtain ⟨⟨dp, m₁⟩, parent, ran⟩ := bind_ok ran
  have held := namex_moves parent
  cases dp with
  | none =>
    cases ran
    exact held
  | some dp =>
    cases entry with
    | found inum plain =>
      obtain ⟨⟨ip, m₂⟩, got, ran⟩ := bind_ok ran
      have both : Moves none m (iput m₂ dp) 0 (mark (some ip)) :=
        ((held.trans (iget_moves got)).trans (iput_moves m₂ dp)).congr (by abel) (by abel)
      simp only at ran
      split at ran
      · cases ran
        exact both
      · cases ran
        exact (both.trans (iput_moves _ ip)).congr (by abel) (by simp)
    | fresh inum =>
      obtain ⟨⟨ip, m₂⟩, got, ran⟩ := bind_ok ran
      cases ran
      exact ((held.trans (iget_moves got)).trans (iput_moves m₂ dp)).congr (by abel) (by abel)

theorem openInode_moves {target : Target} {r : Option (Fin NINODE)}
    (ran : openInode m cur target = .ok (r, m')) : Moves none m m' 0 (mark r) := by
  cases target with
  | create path entry => exact create_moves ran
  | existing path refused =>
    obtain ⟨⟨x, m₁⟩, named, ran⟩ := bind_ok ran
    have held := namex_moves named
    cases x with
    | none =>
      cases ran
      exact held
    | some ip =>
      simp only at ran
      split at ran
      · cases ran
        exact (held.trans (iput_moves m₁ ip)).congr (by abel) (by simp)
      · cases ran
        exact held

/-! ### Files -/

theorem moves_file (m : Machine) (f : Fin NFILE) (e : File) (closed : e.ref = 0 → e.type = .none) :
    Moves none m { m with file := update m.file f e }
      (fun g => (e.ref - (m.file f).ref) * mark (some f) g)
      (mark (m.file f).type.ip - mark e.type.ip) where
  files := by
    funext g
    by_cases same : g = f
    · subst same
      simp [fileSurplus, mark]
    · simp [fileSurplus, mark, same, Ne.symm same]
  inodes := by
    have types : (fun g => (update m.file f e g).type.ip) =
        update (fun g => (m.file g).type.ip) f e.type.ip := by
      funext g
      by_cases same : g = f
      · subst same
        simp
      · simp [same]
    simp only [inodeSurplus, types, count_update]
    abel
  closed all g := by
    by_cases same : g = f
    · subst same
      simpa using closed
    · simpa [same] using all g
  kernel := rfl
  others _ _ := ⟨fun _ => rfl, rfl⟩

theorem setRef_moves (m : Machine) (f : Fin NFILE) {n : Int} (positive : n ≠ 0) :
    Moves none m { m with file := update m.file f { m.file f with ref := n } }
      (fun g => (n - (m.file f).ref) * mark (some f) g) 0 :=
  (moves_file m f _ fun zero => absurd zero positive).congr rfl (by simp)

theorem filealloc_moves (closed : Closed m) (ran : filealloc m = some (f, m')) :
    Moves none m m' (mark (some f)) 0 ∧ m'.file f = { ref := 1, type := .none } ∧
      ∀ g, (m.file g).ref ≠ 0 → g ≠ f ∧ m'.file g = m.file g := by
  unfold filealloc at ran
  split at ran
  · cases ran
  next free =>
    cases ran
    have zero := List.find?_some free
    simp only [decide_eq_true_eq] at zero
    refine ⟨(setRef_moves m f (by decide)).congr ?_ rfl, ?_, fun g used => ?_⟩
    · funext g
      simp [zero]
    · simp [closed f zero]
    · have ne : g ≠ f := by
        rintro rfl
        exact used zero
      exact ⟨ne, Function.update_of_ne ne _ _⟩

theorem filedup_moves (ran : filedup m f = .ok m') : Moves none m m' (mark (some f)) 0 := by
  unfold filedup at ran
  split at ran
  · cases ran
  next positive =>
    cases ran
    refine (setRef_moves m f (by omega)).congr ?_ rfl
    funext g
    simp

theorem moves_pipe (m : Machine) (pipe : Nat → Pipe) (mem : Memory) :
    Moves own m { m with k := { m.k with mem := mem }, pipe := pipe } 0 0 where
  files := (add_zero (fileSurplus m)).symm
  inodes := (add_zero (inodeSurplus m)).symm
  closed := id
  kernel := rfl
  others _ _ := ⟨fun _ => rfl, rfl⟩

theorem pipeclose_moves (m : Machine) (page : Nat) (writable : Bool) :
    Moves none m (pipeclose m page writable) 0 0 := by
  unfold pipeclose
  generalize (if writable then _ else _ : Pipe) = pipe
  simp only
  split
  · exact moves_pipe m _ _
  · exact moves_pipe m _ m.k.mem

theorem closeType_moves (m : Machine) (type : FileType) :
    Moves none m (closeType m type) 0 (-mark type.ip) := by
  cases type with
  | none => exact (Moves.refl m).congr rfl (by simp [FileType.ip])
  | pipe page writable => exact (pipeclose_moves m page writable).congr rfl (by simp [FileType.ip])
  | inode ip => exact iput_moves m ip

/-- The last close passes the reference of the file on to `iput`. -/
theorem fileclose_moves (ran : fileclose m f = .ok m') : Moves none m m' (-mark (some f)) 0 := by
  unfold fileclose at ran
  split at ran
  · cases ran
  split at ran
  next positive =>
    cases ran
    refine (setRef_moves m f (by omega)).congr ?_ rfl
    funext g
    simp
  next last =>
    cases ran
    have one : (m.file f).ref = 1 := by omega
    refine ((moves_file m f { ref := 0, type := .none } fun _ => rfl).trans
      (closeType_moves _ (m.file f).type)).congr ?_ ?_
    · funext g
      simp [one]
    · simp [FileType.ip]

theorem setType_moves (m : Machine) (f : Fin NFILE) (type : FileType) (used : (m.file f).ref ≠ 0) :
    Moves none m (setType m f type) 0 (mark (m.file f).type.ip - mark type.ip) := by
  refine (moves_file m f { m.file f with type } fun zero => absurd zero used).congr ?_ rfl
  funext g
  simp

/-! ### Descriptors -/

/-- An assignment to a descriptor of `p`. -/
theorem setFd_moves (m : Machine) (p : Slot) (fd : Fin NOFILE) (x : Option (Fin NFILE)) :
    Moves (some p) m { m with ofile := update m.ofile (p, fd) x }
      (mark (m.ofile (p, fd)) - mark x) 0 where
  files := by
    simp only [fileSurplus, count_update]
    abel
  inodes := by simp [inodeSurplus]
  closed := id
  kernel := rfl
  others q other := ⟨fun fd' => by
    have ne : (q, fd') ≠ (p, fd) := fun same => other (congrArg (some ∘ Prod.fst) same)
    exact Function.update_of_ne ne _ _, rfl⟩

theorem fdalloc_moves (ran : fdalloc m cur f = some (fd, m')) :
    Moves (some cur) m m' (-mark (some f)) 0 ∧ m'.file = m.file ∧
      m'.ofile = update m.ofile (cur, fd) (some f) := by
  unfold fdalloc at ran
  split at ran
  · cases ran
  next free =>
    cases ran
    have null := List.find?_some free
    simp only [decide_eq_true_eq] at null
    exact ⟨(setFd_moves m cur fd (some f)).congr (by simp [null]) rfl, rfl, rfl⟩

theorem clearFd_moves (m : Machine) (cur : Slot) (fd : Fin NOFILE) :
    Moves (some cur) m (clearFd m cur fd) (mark (m.ofile (cur, fd))) 0 :=
  (setFd_moves m cur fd none).congr (by simp) rfl

theorem sysDup_moves {fd r : Int} (ran : sysDup m cur fd = .ok (r, m')) :
    Moves (some cur) m m' 0 0 := by
  unfold sysDup at ran
  split at ran
  · cases ran
    exact .refl m
  split at ran
  · cases ran
    exact .refl m
  next free =>
    obtain ⟨m₁, dup, ran⟩ := bind_ok ran
    cases ran
    exact ((fdalloc_moves free).1.trans (filedup_moves dup).widen).congr (by simp) (by simp)

theorem argfd_some {n : Int} (ran : argfd m cur n = some (fd, f)) : m.ofile (cur, fd) = some f := by
  unfold argfd at ran
  split at ran
  · obtain ⟨g, isOpen, same⟩ := Option.map_eq_some_iff.mp ran
    cases same
    exact isOpen
  · cases ran

theorem sysClose_moves {fd r : Int} (ran : sysClose m cur fd = .ok (r, m')) :
    Moves (some cur) m m' 0 0 := by
  unfold sysClose at ran
  split at ran
  · cases ran
    exact .refl m
  next fd f isOpen =>
    obtain ⟨m₁, closed, ran⟩ := bind_ok ran
    cases ran
    refine ((clearFd_moves m cur fd).trans (fileclose_moves closed).widen).congr ?_ (by simp)
    simp [argfd_some isOpen]

theorem sysOpen_moves {target : Target} {r : Int} (closed : Closed m)
    (ran : sysOpen m cur target = .ok (r, m')) : Moves (some cur) m m' 0 0 := by
  unfold sysOpen at ran
  obtain ⟨⟨x, m₁⟩, named, ran⟩ := bind_ok ran
  have held := openInode_moves named
  cases x with
  | none =>
    cases ran
    exact held.widen.congr rfl (by simp)
  | some ip =>
    simp only at ran
    split at ran
    · cases ran
      exact (held.trans (iput_moves m₁ ip)).widen.congr (by simp) (by simp)
    next f m₂ allocated =>
      obtain ⟨fresh, entry, _⟩ := filealloc_moves (held.closed closed) allocated
      split at ran
      · obtain ⟨m₃, dropped, ran⟩ := bind_ok ran
        cases ran
        exact (((held.trans fresh).trans (fileclose_moves dropped)).trans (iput_moves m₃ ip)).widen.congr
          (by simp) (by simp)
      next fd m₃ free =>
        cases ran
        obtain ⟨stored, table, _⟩ := fdalloc_moves free
        rw [← table] at entry
        refine (((held.trans fresh).widen.trans stored).trans
          (setType_moves m₃ f (.inode ip) (by simp [entry])).widen).congr (by simp) ?_
        simp [entry, FileType.ip]

/-! ### `pipe` -/

theorem setPipe_moves {f0 f1 : Fin NFILE} {page : Nat} (ne : f0 ≠ f1)
    (first : m.file f0 = { ref := 1, type := .none })
    (second : m.file f1 = { ref := 1, type := .none }) :
    Moves none m (setType (setType m f0 (.pipe page false)) f1 (.pipe page true)) 0 0 := by
  have other : (setType m f0 (.pipe page false)).file f1 = m.file f1 :=
    Function.update_of_ne (Ne.symm ne) _ _
  refine ((setType_moves m f0 (.pipe page false) (by simp [first])).trans
    (setType_moves _ f1 (.pipe page true) (by simp [other, second]))).congr (by simp) ?_
  simp [other, first, second, FileType.ip]

/-- `pipealloc` hands over a reference to each of the files it returns. -/
theorem pipealloc_moves {r : Option (Fin NFILE × Fin NFILE)} (closed : Closed m)
    (ran : pipealloc m = .ok (r, m')) :
    Moves none m m' (mark (r.map Prod.fst) + mark (r.map Prod.snd)) 0 := by
  unfold pipealloc at ran
  split at ran
  · cases ran
    exact (Moves.refl m).congr (by simp) rfl
  next f0 m₁ first =>
    obtain ⟨fresh₀, entry₀, _⟩ := filealloc_moves closed first
    split at ran
    · obtain ⟨m₂, dropped, ran⟩ := bind_ok ran
      cases ran
      exact (fresh₀.trans (fileclose_moves dropped)).congr (by simp) (by simp)
    next f1 m₂ second =>
      obtain ⟨fresh₁, entry₁, others⟩ := filealloc_moves (fresh₀.closed closed) second
      obtain ⟨ne, kept⟩ := others f0 (by simp [entry₀])
      have both := fresh₀.trans fresh₁
      split at ran
      · obtain ⟨m₃, dropped, ran⟩ := bind_ok ran
        obtain ⟨m₄, dropped', ran⟩ := bind_ok ran
        cases ran
        refine ((both.trans (fileclose_moves dropped)).trans (fileclose_moves dropped')).congr ?_ (by simp)
        simp
      next page mem _ =>
        cases ran
        refine ((both.trans (moves_pipe m₂ _ mem)).trans
          (setPipe_moves ne (kept.trans entry₀) entry₁)).congr (by simp) (by simp)

theorem sysPipe_moves {r : Int} (closed : Closed m) (ran : sysPipe m cur = .ok (r, m')) :
    Moves (some cur) m m' 0 0 := by
  unfold sysPipe at ran
  obtain ⟨⟨ends, m₁⟩, allocated, ran⟩ := bind_ok ran
  have held := pipealloc_moves closed allocated
  cases ends with
  | none =>
    cases ran
    exact held.widen.congr (by simp) rfl
  | some ends =>
    obtain ⟨rf, wf⟩ := ends
    simp only at ran
    split at ran
    · obtain ⟨m₂, dropped, ran⟩ := bind_ok ran
      obtain ⟨m₃, dropped', ran⟩ := bind_ok ran
      cases ran
      refine ((held.trans (fileclose_moves dropped)).trans (fileclose_moves dropped')).widen.congr ?_ ?_
      · simp only [Option.map_some]
        abel
      · abel
    next fd0 m₂ free =>
      obtain ⟨stored, _, descriptors⟩ := fdalloc_moves free
      split at ran
      · obtain ⟨m₃, dropped, ran⟩ := bind_ok ran
        obtain ⟨m₄, dropped', ran⟩ := bind_ok ran
        cases ran
        refine ((((held.widen.trans stored).trans (clearFd_moves m₂ cur fd0)).trans
          (fileclose_moves dropped).widen).trans (fileclose_moves dropped').widen).congr ?_ ?_
        · rw [descriptors, Function.update_self]
          simp only [Option.map_some]
          abel
        · abel
      next fd1 m₃ free' =>
        cases ran
        refine ((held.widen.trans stored).trans (fdalloc_moves free').1).congr ?_ (by simp)
        simp only [Option.map_some]
        abel

/-! ### Directories -/

theorem moves_cwd (m : Machine) (p : Slot) (x : Option (Fin NINODE)) :
    Moves (some p) m { m with cwd := update m.cwd p x } 0 (mark (m.cwd p) - mark x) where
  files := by simp [fileSurplus]
  inodes := by
    simp only [inodeSurplus, count_update]
    abel
  closed := id
  kernel := rfl
  others q other := ⟨fun _ => rfl, by
    have ne : q ≠ p := fun same => other (congrArg some same)
    exact Function.update_of_ne ne _ _⟩

theorem setCwd_moves {x : Option (Fin NINODE)} (ran : setCwd m cur x = .ok m') :
    Moves (some cur) m m' 0 (-mark x) ∧ m'.ofile = m.ofile ∧ m'.cwd cur = x := by
  unfold setCwd at ran
  split at ran
  · cases ran
  next old isOld =>
    cases ran
    refine ⟨((iput_moves m old).widen.trans (moves_cwd _ cur x)).congr (by simp) ?_, rfl, ?_⟩
    · rw [(iput_moves m old).cwd, isOld]
      abel
    · simp

theorem sysChdir_moves {path : Path} {directory : Bool} {r : Int}
    (ran : sysChdir m cur path directory = .ok (r, m')) : Moves (some cur) m m' 0 0 := by
  unfold sysChdir at ran
  obtain ⟨⟨x, m₁⟩, named, ran⟩ := bind_ok ran
  have held := namex_moves named
  cases x with
  | none =>
    cases ran
    exact held.widen.congr rfl (by simp)
  | some ip =>
    simp only at ran
    split at ran
    · obtain ⟨m₂, set, ran⟩ := bind_ok ran
      cases ran
      exact (held.widen.trans (setCwd_moves set).1).congr (by simp) (by simp)
    · cases ran
      exact (held.trans (iput_moves m₁ ip)).widen.congr (by simp) (by simp)

/-! ### The files of a process -/

theorem closeFd_moves (ran : closeFd m cur fd = .ok m') :
    Moves (some cur) m m' 0 0 ∧ m'.ofile = update m.ofile (cur, fd) none := by
  unfold closeFd at ran
  split at ran
  next null =>
    cases ran
    exact ⟨.refl m, by rw [← null, Function.update_eq_self]⟩
  next f isOpen =>
    obtain ⟨m₁, closed, ran⟩ := bind_ok ran
    cases ran
    have close := fileclose_moves closed
    refine ⟨(close.widen.trans (clearFd_moves m₁ cur fd)).congr ?_ (by simp), ?_⟩
    · simp [close.ofile, isOpen]
    · rw [clearFd, close.ofile]

/-- `exit` and `thread_exit` leave no descriptor and no directory. -/
theorem closeFiles_moves (ran : closeFiles m cur = .ok m') :
    Moves (some cur) m m' 0 0 ∧ (∀ fd, m'.ofile (cur, fd) = none) ∧ m'.cwd cur = none := by
  unfold closeFiles at ran
  obtain ⟨m₁, closed, ran⟩ := bind_ok ran
  -- every descriptor already visited is null
  have loop : ∀ (l : List (Fin NOFILE)) (m₀ : Machine), Moves (some cur) m m₀ 0 0 →
      l.foldlM (fun m fd => closeFd m cur fd) m₀ = .ok m₁ →
      Moves (some cur) m m₁ 0 0 ∧
        ∀ fd, fd ∈ l ∨ m₀.ofile (cur, fd) = none → m₁.ofile (cur, fd) = none := by
    intro l
    induction l with
    | nil =>
      intro m₀ moves ran
      cases ran
      exact ⟨moves, fun fd null => null.resolve_left (by simp)⟩
    | cons fd l ih =>
      intro m₀ moves ran
      rw [List.foldlM_cons] at ran
      obtain ⟨m₂, round, ran⟩ := bind_ok ran
      obtain ⟨one, table⟩ := closeFd_moves round
      obtain ⟨all, nulls⟩ := ih m₂ ((moves.trans one).congr (by simp) (by simp)) ran
      refine ⟨all, fun fd' null => nulls fd' ?_⟩
      rw [table]
      by_cases same : fd' = fd
      · subst same
        exact .inr (Function.update_self ..)
      · rw [Function.update_of_ne (by simpa using same)]
        exact null.imp_left fun member => (List.mem_cons.mp member).resolve_left same
  obtain ⟨all, nulls⟩ := loop _ m (.refl m) closed
  obtain ⟨last, descriptors, directory⟩ := setCwd_moves ran
  refine ⟨(all.trans last).congr (by simp) (by simp), fun fd => ?_, directory⟩
  rw [descriptors]
  exact nulls fd (.inl (List.mem_finRange fd))

/-- `fork` and `thread_create` give a slot without descriptors those of `cur`. -/
theorem copyFiles_moves (ne : np ≠ cur) (idle : ∀ fd, m.ofile (np, fd) = none)
    (directory : m.cwd np = none) (ran : copyFiles m cur np = .ok m') :
    Moves (some np) m m' 0 0 ∧ ∀ fd, m'.ofile (np, fd) = m.ofile (cur, fd) := by
  unfold copyFiles at ran
  obtain ⟨m₁, copied, ran⟩ := bind_ok ran
  obtain ⟨⟨ip, m₂⟩, dup, ran⟩ := bind_ok ran
  cases ran
  -- the descriptors not yet visited are null
  have loop : ∀ (l : List (Fin NOFILE)) (m₀ : Machine), l.Nodup → Moves (some np) m m₀ 0 0 →
      m₀.cwd = m.cwd → (∀ fd ∈ l, m₀.ofile (np, fd) = none) →
      l.foldlM (fun m fd => copyFd m cur np fd) m₀ = .ok m₁ →
      Moves (some np) m m₁ 0 0 ∧ m₁.cwd = m.cwd ∧
        ∀ fd, m₁.ofile (np, fd) = if fd ∈ l then m.ofile (cur, fd) else m₀.ofile (np, fd) := by
    intro l
    induction l with
    | nil =>
      intro m₀ _ moves same _ ran
      cases ran
      exact ⟨moves, same, fun fd => by simp⟩
    | cons fd l ih =>
      intro m₀ nodup moves same nulls ran
      rw [List.foldlM_cons] at ran
      obtain ⟨m₂, round, ran⟩ := bind_ok ran
      obtain ⟨one, cwd, table⟩ : Moves (some np) m₀ m₂ 0 0 ∧ m₂.cwd = m₀.cwd ∧
          m₂.ofile = update m₀.ofile (np, fd) (m₀.ofile (cur, fd)) := by
        unfold copyFd at round
        split at round
        next null =>
          cases round
          refine ⟨.refl m₀, rfl, ?_⟩
          rw [null, ← nulls fd List.mem_cons_self, Function.update_eq_self]
        next f isOpen =>
          obtain ⟨m₃, counted, round⟩ := bind_ok round
          cases round
          have taken := filedup_moves counted
          refine ⟨(taken.widen.trans (setFd_moves m₃ np fd (some f))).congr ?_ (by simp), taken.cwd, ?_⟩
          · simp [taken.ofile, nulls fd List.mem_cons_self]
          · rw [taken.ofile, isOpen]
      obtain ⟨fresh, nodup⟩ := List.nodup_cons.mp nodup
      have others : ∀ fd' ∈ l, m₂.ofile (np, fd') = none := by
        intro fd' member
        have other : fd' ≠ fd := ne_of_mem_of_not_mem member fresh
        rw [table, Function.update_of_ne (by simpa using other)]
        exact nulls fd' (List.mem_cons_of_mem _ member)
      obtain ⟨all, cwd', copies⟩ := ih m₂ nodup ((moves.trans one).congr (by simp) (by simp))
        (cwd.trans same) others ran
      refine ⟨all, cwd', fun fd' => ?_⟩
      have source : m₀.ofile (cur, fd) = m.ofile (cur, fd) :=
        (moves.others cur (by simpa using Ne.symm ne)).1 fd
      rw [copies, table]
      by_cases here : fd' = fd
      · subst here
        simp [fresh, source]
      · simp [here]
  obtain ⟨all, cwd, copies⟩ := loop _ m (List.nodup_finRange _) (.refl m) rfl (fun fd _ => idle fd) copied
  obtain ⟨_, taken⟩ := idup_moves dup
  refine ⟨((all.trans taken.widen).trans (moves_cwd m₂ np (some ip))).congr (by simp) ?_, fun fd => ?_⟩
  · simp [taken.cwd, cwd, directory]
  · exact (congrFun taken.ofile (np, fd)).trans ((copies fd).trans (by simp))

end Xv6.Files
