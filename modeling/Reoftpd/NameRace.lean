import Reoftpd.EncryptedRace
import Reoftpd.TreeStores

/-!
# One name, one upload

Any number of stores of one final path at once, all `store_stream` or all
`store_encrypted`, interleaved one file operation at a time.  The early check that the
final path is free is racy; what decides is the hard link, which never replaces a name,
and that nothing else the calls do touches the final name (`NoClobber`).  So the final
name is a cell that is bound once, and at most one call wins it
(`one_upload_wins`): on a disk of names, and on a directory tree with any links as long
as none lies on the way to the directory of the final path.
-/
namespace Reoftpd
open Interleaving Runs UnixPath FileTree

/-- **The operations of a store never touch the final name**, except the hard link, which
binds it if it is free.  `cell` is what the final name is bound to, and `inv` what the
operations need and keep. -/
structure NoClobber {S H E : Type} (ops : TargetOps S H) (inv : S → Prop) (cell : S → Option E) :
    Prop where
  createParent : ∀ s, inv s → inv (ops.createParent s).1 ∧
    ∀ e, cell s = some e → cell (ops.createParent s).1 = some e
  openAppend : ∀ s s' h, inv s → ops.openAppend s = .ok (s', h) → inv s' ∧
    ∀ e, cell s = some e → cell s' = some e
  createFile : ∀ s s' h, inv s → ops.createFile s = .ok (s', h) → inv s' ∧
    ∀ e, cell s = some e → cell s' = some e
  append : ∀ s h b, inv s → inv (ops.append s h b) ∧
    ∀ e, cell s = some e → cell (ops.append s h b) = some e
  writeAt : ∀ s h off b, inv s → inv (ops.writeAt s h off b) ∧
    ∀ e, cell s = some e → cell (ops.writeAt s h off b) = some e
  removeStaging : ∀ s, inv s → inv (ops.removeStaging s) ∧
    ∀ e, cell s = some e → cell (ops.removeStaging s) = some e
  hardLink : ∀ s s', inv s → ops.hardLink s = .ok s' → inv s' ∧ cell s = none ∧ cell s' ≠ none

/-! ## What a call has come to -/

/-- What a call has returned. -/
def StorePc.returned {H : Type} : StorePc H → Option StoreResult
  | .done r => some r
  | _ => none

/-- Whether the hard link of a call is behind it. -/
def StorePc.pastLink {H : Type} : StorePc H → Bool
  | .remove _ | .done _ => true
  | _ => false

/-- Whether a call has linked the staging file. -/
def StorePc.Won {H : Type} : StorePc H → Prop
  | .remove (.ok _) | .done (.ok _) => True
  | _ => False

/-- What a call has returned. -/
def EncryptPc.returned {H : Type} : EncryptPc H → Option StoreResult
  | .done r => some r
  | _ => none

/-- Whether the hard link of a call is behind it. -/
def EncryptPc.pastLink {H : Type} : EncryptPc H → Bool
  | .remove _ | .done _ => true
  | _ => false

/-- Whether a call has linked the staging file. -/
def EncryptPc.Won {H : Type} : EncryptPc H → Prop
  | .remove (.ok _) | .done (.ok _) => True
  | _ => False

section Steps
variable {S H E : Type} {ops : TargetOps S H} {inv : S → Prop} {cell : S → Option E}
  {s : S} {f : Option Errno}

/-- What a step does to the final name: it keeps what is bound, unless it wins. -/
def StepKeeps (inv : S → Prop) (cell : S → Option E) (s s' : S) : Prop :=
  inv s' ∧ ∀ e, cell s = some e → cell s' = some e

theorem NoClobber.dropStaging (hops : NoClobber ops inv cell) (hs : inv s) :
    StepKeeps inv cell s (dropStaging ops f s) := by
  cases f with
  | none => exact hops.removeStaging s hs
  | some e => exact ⟨hs, fun _ h => h⟩

theorem NoClobber.makeParent (hops : NoClobber ops inv cell) (hs : inv s) :
    StepKeeps inv cell s (makeParent ops f s).1 := by
  cases f with
  | none => exact hops.createParent s hs
  | some e => exact ⟨hs, fun _ h => h⟩

/-- The link step fails and changes nothing, or binds the final name. -/
theorem NoClobber.linkStaging (hops : NoClobber ops inv cell) (hs : inv s) (n : Nat) :
    (∃ e, linkStaging ops f s n = (s, .error e)) ∨
      ∃ s', linkStaging ops f s n = (s', .ok n) ∧ inv s' ∧ cell s = none ∧ cell s' ≠ none := by
  unfold Reoftpd.linkStaging
  split
  · rename_i s' h
    exact Or.inr ⟨s', rfl, hops.hardLink s s' hs (attempt_ok h).2⟩
  · exact Or.inl ⟨_, rfl⟩
  · exact Or.inl ⟨_, rfl⟩

/-- What one step of either store does, by whether its call wins with it. -/
def StepRaces (inv : S → Prop) (cell : S → Option E) (s s' : S) (won won' : Prop) : Prop :=
  StepKeeps inv cell s s' ∧ (won' → won ∨ cell s = none ∧ cell s' ≠ none)

theorem StepRaces.of_keeps {s' : S} {won won' : Prop} (h : StepKeeps inv cell s s')
    (hw : won' → won) : StepRaces inv cell s s' won won' :=
  ⟨h, fun h' => Or.inl (hw h')⟩

theorem StepRaces.stay {won won' : Prop} (hs : inv s) (hw : won' → won) :
    StepRaces inv cell s s won won' :=
  .of_keeps ⟨hs, fun _ h => h⟩ hw

theorem StepRaces.link {s' : S} {won won' : Prop} (hs' : inv s') (hn : cell s = none)
    (hb : cell s' ≠ none) : StepRaces inv cell s s' won won' :=
  ⟨⟨hs', fun e he => by rw [hn] at he; cases he⟩, fun _ => Or.inr ⟨hn, hb⟩⟩

theorem not_won_afterExists (r : Except Errno Bool) : ¬ (afterExists r : StorePc H).Won := by
  rcases r with e | (_ | _) <;> exact id

theorem not_won_afterVerdict (r : Except Errno OffsetVerdict) :
    ¬ (afterVerdict r : StorePc H).Won := by
  rcases r with e | (_ | _ | _) <;> exact id

theorem not_won_afterCheck (r : Except Errno Bool) : ¬ (afterCheck r : EncryptPc H).Won := by
  rcases r with e | (_ | _) <;> exact id

theorem not_won_afterEncryption (r : Except CryptoError Nat) :
    ¬ (afterEncryption r : EncryptPc H).Won := by
  rcases r with e | n <;> exact id

/-- **A step of `store_stream`** keeps the final name, or wins it. -/
theorem NoClobber.storeStep (hops : NoClobber ops inv cell) (hs : inv s) (startPos : Nat)
    (input : Input) (p : StorePc H) :
    StepRaces inv cell s (storeStep ops startPos input s p f).1 p.Won
      (storeStep ops startPos input s p f).2.Won := by
  cases p with
  | start => exact .stay hs fun h => absurd h (not_won_afterExists _)
  | stat => exact .stay hs fun h => absurd h (not_won_afterVerdict _)
  | createParent =>
      have hkeep := hops.makeParent (f := f) hs
      simp only [Reoftpd.storeStep]
      split
      all_goals
        rename_i s' _ hm
        rw [hm] at hkeep
        exact .of_keeps hkeep id
  | openStaging =>
      simp only [Reoftpd.storeStep]
      split
      · rename_i s' h ho
        exact .of_keeps (hops.openAppend s s' h hs (attempt_ok ho).2) id
      · exact .stay hs id
  | copy h rest n =>
      rcases rest with _ | ⟨e | b, rest⟩
      · exact .stay hs id
      · exact .stay hs id
      · exact .of_keeps (hops.append s h b hs) id
  | flush n => cases f <;> exact .stay hs id
  -- only the link can bind the name, and it fails where the name is bound
  | link n =>
      simp only [Reoftpd.storeStep]
      rcases hops.linkStaging (f := f) hs n with ⟨e, h⟩ | ⟨s', h, hs', hn, hb⟩ <;> rw [h]
      · exact .stay hs id
      · exact .link hs' hn hb
  | remove r =>
      refine .of_keeps (hops.dropStaging hs) ?_
      cases r <;> exact id
  | done r => exact .stay hs id

/-- **A step of `store_encrypted`** keeps the final name, or wins it. -/
theorem NoClobber.encryptedStep (hops : NoClobber ops inv cell) (hs : inv s) (out : Encrypted)
    (p : EncryptPc H) :
    StepRaces inv cell s (encryptedStep ops out s p f).1 p.Won
      (encryptedStep ops out s p f).2.Won := by
  cases p with
  | start => exact .stay hs fun h => absurd h (not_won_afterCheck _)
  | createParent =>
      have hkeep := hops.makeParent (f := f) hs
      simp only [Reoftpd.encryptedStep]
      split
      all_goals
        rename_i s' _ hm
        rw [hm] at hkeep
        exact .of_keeps hkeep id
  | create =>
      simp only [Reoftpd.encryptedStep]
      split
      · rename_i s' h ho
        exact .of_keeps (hops.createFile s s' h hs (attempt_ok ho).2) id
      · exact .stay hs id
  | write h off k rest =>
      cases rest with
      | nil => exact .stay hs fun hw => absurd hw (not_won_afterEncryption _)
      | cons b rest =>
          cases f with
          | none => exact .of_keeps (hops.writeAt s h off b hs) id
          | some e => exact .stay hs id
  | link n =>
      simp only [Reoftpd.encryptedStep]
      rcases hops.linkStaging (f := f) hs n with ⟨e, h⟩ | ⟨s', h, hs', hn, hb⟩ <;> rw [h]
      · exact .stay hs id
      · exact .link hs' hn hb
  | remove r =>
      refine .of_keeps (hops.dropStaging hs) ?_
      cases r <;> exact id
  | done r => exact .stay hs id

end Steps

/-! ## The two file systems -/

/-- On a disk of names. -/
theorem noClobber_disk {N T : Type} [DecidableEq N] {final staging : N} (hne : staging ≠ final) :
    NoClobber (diskTarget final staging) (fun _ : Disk N T => True) (·.lookup final) := by
  have hopened : ∀ {d d' : Disk N T} {i : Nat},
      d.openAppend staging = .ok (d', i) → d'.lookup final = d.lookup final := by
    intro d d' i ho
    rcases Disk.openAppend_ok ho with ⟨-, rfl⟩ | ⟨-, rfl, -⟩
    · rfl
    · exact Disk.lookup_create_ne hne.symm
  have hcreated : ∀ {d d' : Disk N T} {i : Nat},
      d.openTruncate staging = .ok (d', i) → d'.lookup final = d.lookup final := by
    intro d d' i ho
    rcases Disk.openTruncate_ok ho with ⟨-, rfl⟩ | ⟨-, rfl, -⟩
    · rfl
    · exact Disk.lookup_create_ne hne.symm
  refine ⟨fun d _ => ⟨trivial, fun _ => id⟩, fun d d' i _ ho => ⟨trivial, fun e he => ?_⟩,
    fun d d' i _ ho => ⟨trivial, fun e he => ?_⟩, fun d i b _ => ⟨trivial, fun _ => id⟩,
    fun d i off b _ => ⟨trivial, fun _ => id⟩, fun d _ => ⟨trivial, fun e he => ?_⟩,
    fun d d' _ hl => ?_⟩
  · exact (hopened ho).trans he
  · exact (hcreated ho).trans he
  · show (d.discard staging).lookup final = some e
    rcases d.discard_cases staging with h | h <;> rw [h]
    · exact he
    · exact (Disk.lookup_erase_ne hne.symm).trans he
  · obtain ⟨e, he, -, hn, -, rfl⟩ := Disk.hardLink_ok hl
    exact ⟨trivial, hn, by simp⟩

section Tree
variable {t t' : FileTree} {P : Loc} {a : OsStr} {mk : MkdirFault}

/-- A change at a name in `P` leaves no link on the way to `P`. -/
theorem straight_of_entry {L : Loc} (hP : t.Straight P) (hL : P.length < L.length)
    (hne : ∀ M, M ≠ L → t'.entry M = t.entry M) : t'.Straight P := by
  intro q hq hqne target
  have hqL : q ≠ L := by
    rintro rfl
    exact absurd hq.length_le (not_le.mpr hL)
  rw [hne q hqL]
  exact hP q hq hqne target

/-- On a directory tree, with no link on the way to the directory of the final path. -/
theorem noClobber_tree (mk : MkdirFault) (hnames : ∀ s ∈ P ++ [a], IsName s) :
    NoClobber (treeTarget mk (locText (P ++ [a]))) (·.Straight P) (·.entry (P ++ [a])) := by
  have hsuffix : stagingPath (locText (P ++ [a])) = locText (P ++ [a ++ stagingSuffix]) :=
    stagingPath_locText
  have hstaging : ∀ s ∈ P ++ [a ++ stagingSuffix], IsName s := by
    intro s hs
    rcases List.mem_append.mp hs with hs | hs
    · exact hnames s (List.mem_append_left _ hs)
    · rw [List.mem_singleton.mp hs]
      exact isName_suffix (hnames a (by simp)) (by decide)
  have hne : P ++ [a ++ stagingSuffix] ≠ P ++ [a] := by
    intro h
    have hlast := List.append_cancel_left h
    simp [stagingSuffix, ofString] at hlast
  have hopen : ∀ {t t' : FileTree} {p : OsStr} {i : Nat}, t.Straight P →
      t.openFile p = .ok (t', i) → t'.Straight P ∧
        ∀ e, t.entry (P ++ [a]) = some e → t'.entry (P ++ [a]) = some e := by
    intro t t' p i hP ho
    obtain ⟨L, -, ⟨-, rfl⟩ | ⟨hv, rfl, -⟩⟩ := openFile_ok ho
    · exact ⟨hP, fun _ => id⟩
    · refine ⟨hP.of_sameLinks (grows_createAt hv).toSameLinks, fun e he => ?_⟩
      have hL : P ++ [a] ≠ L := by
        rintro rfl
        rw [hv.2.1] at he
        cases he
      rw [entry_createAt_ne hL]
      exact he
  refine ⟨fun t hP => ?_, fun t t' i hP ho => hopen hP ho, fun t t' i hP ho => ?_,
    fun t i b hP => ⟨hP, fun _ => id⟩, fun t i off b hP => ⟨hP, fun _ => id⟩, fun t hP => ?_,
    fun t t' hP hl => ?_⟩
  · have hdirs := addsDirs_createParent mk (locText (P ++ [a])) t
    refine ⟨hP.of_sameLinks hdirs.grows.toSameLinks, fun e he => ?_⟩
    rcases hdirs.entry (P ++ [a]) with h | ⟨h, -⟩
    · exact h.trans he
    · rw [he] at h
      cases h
  · obtain ⟨t₁, hfile, rfl⟩ := openTruncate_ok ho
    have hkeep := hopen hP hfile
    exact hkeep
  · show (t.discard (stagingPath (locText (P ++ [a])))).Straight P ∧
      ∀ e, t.entry (P ++ [a]) = some e →
        (t.discard (stagingPath (locText (P ++ [a])))).entry (P ++ [a]) = some e
    rw [hsuffix]
    unfold FileTree.discard
    split
    · rename_i t' hr
      obtain ⟨L, e, hl, -, -, rfl⟩ := removeFile_ok hr
      obtain rfl := hP.locate_name hstaging hl
      refine ⟨straight_of_entry hP (by simp) fun _ => entry_eraseAt_ne, fun e he => ?_⟩
      rw [entry_eraseAt_ne hne.symm]
      exact he
    · exact ⟨hP, fun _ => id⟩
  · obtain ⟨S, D, e, -, he, -, hdst, hv, rfl⟩ := hardLink_ok hl
    obtain rfl := hP.locate_name hnames hdst
    refine ⟨straight_of_entry hP (by simp) fun _ => entry_linkAt_ne, hv.2.1, ?_⟩
    rw [entry_linkAt_self hv he]
    exact Option.some_ne_none e

end Tree

/-! ## At most one upload wins -/

/-- **At most one call wins the name**, in every run from `c`: two calls never both
succeed, a call that succeeds leaves the final name bound, a bound final name is never
removed or bound to anything else, and a call whose hard link is still ahead then can only
return an error. -/
structure OneWinner {ι S P E : Type} (step : Joint ι S P → ι × Option Errno → Joint ι S P)
    (cell : S → Option E) (pastLink : P → Bool) (returned : P → Option StoreResult)
    (c : Joint ι S P) : Prop where
  unique : ∀ es i j n m, returned ((run step c es).loc i) = some (.ok n) →
    returned ((run step c es).loc j) = some (.ok m) → i = j
  bound : ∀ es i n, returned ((run step c es).loc i) = some (.ok n) →
    cell (run step c es).shared ≠ none
  kept : ∀ es es' e, cell (run step c es).shared = some e →
    cell (run step c (es ++ es')).shared = some e
  late : ∀ es es' i r, cell (run step c es).shared ≠ none →
    pastLink ((run step c es).loc i) = false →
    returned ((run step c (es ++ es')).loc i) = some r → ∃ e, r = .error e

variable {ι : Type} [DecidableEq ι]

/-- A race for the final name has at most one winner. -/
theorem oneWinner_of_bindsOnce {S P E : Type} {proc : ι → S → P → Option Errno → S × P}
    {inv : S → Prop} {cell : S → Option E} {won : P → Prop} {pastLink : P → Bool}
    {returned : P → Option StoreResult} {s : S} {start : P} (h : BindsOnce proc inv cell won)
    (hs : inv s) (hstart : ¬ won start) (hreturned : ∀ p n, returned p = some (.ok n) → won p)
    (hpast : ∀ p, won p → pastLink p = true) :
    OneWinner (step proc) cell pastLink returned ⟨s, fun _ => start⟩ := by
  have hrun (es : List (ι × Option Errno)) :
      OneWon inv cell won (run (step proc) ⟨s, fun _ => start⟩ es) :=
    h.run_oneWon ⟨hs, fun _ hw => absurd hw hstart, fun _ _ hw => absurd hw hstart⟩ es
  refine ⟨fun es i j n m hi hj => ?_, fun es i n hi => ?_, fun es es' e he => ?_,
    fun es es' i r hb hp hr => ?_⟩
  · exact (hrun es).unique i j (hreturned _ n hi) (hreturned _ m hj)
  · exact (hrun es).bound i (hreturned _ n hi)
  · rw [run_append]
    exact h.run_bound (hrun es).keeps he es'
  · cases r with
    | error e => exact ⟨e, rfl⟩
    | ok n =>
        obtain ⟨v, hv⟩ := Option.ne_none_iff_exists'.mp hb
        have hnot : ¬ won ((run (step proc) ⟨s, fun _ => start⟩ es).loc i) := by
          intro hw
          rw [hpast _ hw] at hp
          cases hp
        rw [run_append] at hr
        exact absurd (hreturned _ n hr) (h.run_not_won (hrun es).keeps hv hnot es')

/-- One step of concurrent `store_stream` calls, each with its own file operations. -/
def streamRaceStep {S H : Type} (ops : ι → TargetOps S H) (calls : ι → StoreCall) :
    Joint ι S (StorePc H) → ι × Option Errno → Joint ι S (StorePc H) :=
  step fun i => storeStep (ops i) (calls i).startPos (calls i).input

/-- One step of concurrent `store_encrypted` calls. -/
def uploadRaceStep {S H : Type} {age : Age} (ops : ι → TargetOps S H)
    (calls : ι → EncryptCall age) :
    Joint ι S (EncryptPc H) → ι × Option Errno → Joint ι S (EncryptPc H) :=
  step fun i => encryptedStep (ops i) (calls i).out

section Winner
variable {S H E : Type} {ops : ι → TargetOps S H} {inv : S → Prop} {cell : S → Option E} {s : S}

theorem streamRace_oneWinner (hops : ∀ i, NoClobber (ops i) inv cell) (hs : inv s)
    (calls : ι → StoreCall) :
    OneWinner (streamRaceStep ops calls) cell StorePc.pastLink StorePc.returned
      ⟨s, fun _ => .start⟩ := by
  have hrace : BindsOnce (fun i => storeStep (ops i) (calls i).startPos (calls i).input) inv cell
      StorePc.Won :=
    ⟨fun i _ p _ hs => ((hops i).storeStep hs _ _ p).1.1,
      fun i _ p _ e hs => ((hops i).storeStep hs _ _ p).1.2 e,
      fun i _ p _ hs => ((hops i).storeStep hs _ _ p).2⟩
  refine oneWinner_of_bindsOnce hrace hs id (fun p n hp => ?_) fun p hp => ?_
  · cases p with
    | done r =>
        obtain rfl := Option.some.inj hp
        trivial
    | _ => cases hp
  · cases p with
    | remove r | done r => rfl
    | _ => exact hp.elim

theorem uploadRace_oneWinner {age : Age} (hops : ∀ i, NoClobber (ops i) inv cell) (hs : inv s)
    (calls : ι → EncryptCall age) :
    OneWinner (uploadRaceStep ops calls) cell EncryptPc.pastLink EncryptPc.returned
      ⟨s, fun _ => .start⟩ := by
  have hrace : BindsOnce (fun i => encryptedStep (ops i) (calls i).out) inv cell EncryptPc.Won :=
    ⟨fun i _ p _ hs => ((hops i).encryptedStep hs _ p).1.1,
      fun i _ p _ e hs => ((hops i).encryptedStep hs _ p).1.2 e,
      fun i _ p _ hs => ((hops i).encryptedStep hs _ p).2⟩
  refine oneWinner_of_bindsOnce hrace hs id (fun p n hp => ?_) fun p hp => ?_
  · cases p with
    | done r =>
        obtain rfl := Option.some.inj hp
        trivial
    | _ => cases hp
  · cases p with
    | remove r | done r => rfl
    | _ => exact hp.elim

end Winner

/-- **At most one upload wins a name.**  From any state of a disk of names, and from any
directory tree with no link on the way to the directory of the final path, whatever the
calls are and however their steps and failures interleave. -/
theorem one_upload_wins {T : Type} {age : Age} (streams : ι → StoreCall)
    (uploads : ι → EncryptCall age) :
    (∀ (final : OsStr) (d : Disk OsStr T),
      OneWinner (streamRaceStep (fun _ => diskTarget final (stagingPath final)) streams)
          (·.lookup final) StorePc.pastLink StorePc.returned ⟨d, fun _ => .start⟩ ∧
        OneWinner (uploadRaceStep (fun _ => diskTarget final (stagingPath final)) uploads)
          (·.lookup final) EncryptPc.pastLink EncryptPc.returned ⟨d, fun _ => .start⟩) ∧
    ∀ (mk : ι → MkdirFault) (P : Loc) (a : OsStr) (t : FileTree),
      (∀ s ∈ P ++ [a], IsName s) → t.Straight P →
      OneWinner (streamRaceStep (fun i => treeTarget (mk i) (locText (P ++ [a]))) streams)
          (·.entry (P ++ [a])) StorePc.pastLink StorePc.returned ⟨t, fun _ => .start⟩ ∧
        OneWinner (uploadRaceStep (fun i => treeTarget (mk i) (locText (P ++ [a]))) uploads)
          (·.entry (P ++ [a])) EncryptPc.pastLink EncryptPc.returned ⟨t, fun _ => .start⟩ := by
  refine ⟨fun final d => ?_, fun mk P a t hnames hP => ?_⟩
  · have hops := fun _ : ι => noClobber_disk (T := T) (stagingPath_ne final)
    exact ⟨streamRace_oneWinner hops trivial streams, uploadRace_oneWinner hops trivial uploads⟩
  · have hops := fun i => noClobber_tree (mk i) hnames
    exact ⟨streamRace_oneWinner hops hP streams, uploadRace_oneWinner hops hP uploads⟩

end Reoftpd
