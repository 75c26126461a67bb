import Reoftpd.Config
import Reoftpd.SweepSpares

/-!
# The cleanup command

`Command::Cleanup` of `main.rs`: a sweep of the archive root with the retention period of
the config.  The period in seconds is a product of two `u64`s, and a release build lets it
wrap around.  Times are in nanoseconds here, so that an age is compared with its limit as
finely as `Duration`s are.

**Footage goes only when it is older than the configured period** if that period, in
seconds, is a `u64` (`retention_holds_iff`).  From 213503982334602 days on it is not: the
sweep then keeps files for what is left of the product (`retention_wraps`).
-/
namespace Reoftpd
open UnixPath FileTree

/-- `Duration::from_secs`. -/
def fromSecs (secs : Nat) : Nat := secs * 1000000000

/-- `cfg.archive.retention_days * 86_400`, as a release build computes it. -/
def retentionSecs (cfg : Config) : Nat := cfg.archive.retentionDays * 86400 % 18446744073709551616

/-- `QUARANTINE_TTL`. -/
def cleanupQuarantineTtl : Nat := fromSecs 3600

/-- `STAGING_TTL`. -/
def cleanupStagingTtl : Nat := fromSecs 3600

/-- What the command calls the sweep with. -/
def cleanupArgs (cfg : Config) (dryRun : Bool) (now : Nat) : SweepArgs where
  retention := fromSecs (retentionSecs cfg)
  quarantineTtl := cleanupQuarantineTtl
  stagingTtl := cleanupStagingTtl
  now := now
  dryRun := dryRun

/-- The `cleanup` command, once its config is loaded. -/
def cleanup (fault : SweepFault) (cfg : Config) (dryRun : Bool) (now : Nat) (t : FileTree) :
    FileTree × Except Errno SweepReport :=
  sweep (cleanupArgs cfg dryRun now) fault cfg.archive.root t

/-- The file at `L` lies directly in a directory named `.quarantine`, which the root of the
sweep is if its path says so. -/
def InQuarantine (t : FileTree) (root : OsStr) (L : Loc) : Prop :=
  L.dropLast.getLast? = some quarantineDir ∨
    t.locate true root = .ok L.dropLast ∧ fileName root = some quarantineDir

/-- The file at `L` has the name of a staging file. -/
def StagingNamed (L : Loc) : Prop := stagingSuffix.isSuffixOf (L.getLastD []) = true

/-- **The retention period is not cut short**: whatever the tree, the time and the calls
that fail, a file that goes, other than a staging file or one in a quarantine directory,
is older than the configured number of days. -/
def RetentionHolds (cfg : Config) : Prop :=
  ∀ fault dryRun now t L i, t.entry L = some (.file i) →
    (cleanup fault cfg dryRun now t).1.entry L ≠ some (.file i) →
    ¬ InQuarantine t cfg.archive.root L → ¬ StagingNamed L →
    fromSecs (cfg.archive.retentionDays * 86400) < now - t.disk.modified i

section Cleanup
variable {cfg : Config} {fault : SweepFault} {dryRun : Bool} {now i : Nat} {t : FileTree} {L : Loc}

/-- The limit of a file that is neither is the retention period. -/
theorem limit_retention {args : SweepArgs} {root : OsStr} {R m : Loc}
    (hR : t.locate true root = .ok R) (hm : m ≠ []) (hq : ¬ InQuarantine t root (R ++ m))
    (hs : ¬ StagingNamed (R ++ m)) :
    limit args root m = args.retention := by
  have hlast : (R ++ m).getLastD [] = m.getLastD [] := by
    rw [List.getLastD_eq_getLast?, List.getLastD_eq_getLast?, List.getLast?_append_of_ne_nil _ hm]
  have hdir : dirName root m.dropLast ≠ some quarantineDir := by
    intro hname
    apply hq
    rw [InQuarantine, List.dropLast_append_of_ne_nil hm]
    by_cases hd : m.dropLast = []
    · rw [hd] at hname ⊢
      rw [List.append_nil]
      exact Or.inr ⟨hR, hname⟩
    · rw [dirName, List.getLast?_eq_some_getLast hd] at hname
      rw [List.getLast?_append_of_ne_nil _ hd, List.getLast?_eq_some_getLast hd]
      exact Or.inl hname
  rw [StagingNamed, hlast] at hs
  rw [limit, if_neg hdir, if_neg fun h => hs h.1]

/-- **What the command removes** is older than the period that it computes. -/
theorem cleanup_removes (hf : t.entry L = some (.file i))
    (hgone : (cleanup fault cfg dryRun now t).1.entry L ≠ some (.file i))
    (hq : ¬ InQuarantine t cfg.archive.root L) (hs : ¬ StagingNamed L) :
    fromSecs (retentionSecs cfg) < now - t.disk.modified i := by
  by_cases hroot : ∃ R, t.locate true cfg.archive.root = .ok R ∧ t.entry R = some .dir
  · obtain ⟨R, hR, hdir⟩ := hroot
    have hspared : Spared (cleanupArgs cfg dryRun now) t cfg.archive.root R
        (cleanup fault cfg dryRun now t).1 := sweep_spared hR hdir
    rcases hspared.entry_or L with he | ⟨-, ⟨m, rfl⟩, hne⟩
    · rw [he] at hgone
      exact absurd hf hgone
    · have hm : m ≠ [] := by simpa using hne
      have hold : ¬ Kept (cleanupArgs cfg dryRun now) t cfg.archive.root R m := by
        intro hk
        rw [hspared.keeps m hk] at hgone
        exact hgone hf
      rw [kept_file hf, not_not, limit_retention hR hm hq hs] at hold
      exact hold
  · have hsame : (cleanup fault cfg dryRun now t).1 = t :=
      sweep_lost fun R hR hdir => hroot ⟨R, hR, hdir⟩
    rw [hsame] at hgone
    exact absurd hf hgone

/-- A period that is a `u64` is the one that is computed. -/
theorem retentionSecs_eq (h : cfg.archive.retentionDays * 86400 < 18446744073709551616) :
    retentionSecs cfg = cfg.archive.retentionDays * 86400 :=
  Nat.mod_eq_of_lt h

/-- One that is not is computed as a shorter one. -/
theorem retentionSecs_lt (h : ¬ cfg.archive.retentionDays * 86400 < 18446744073709551616) :
    retentionSecs cfg < cfg.archive.retentionDays * 86400 := by
  have hmod : retentionSecs cfg < 18446744073709551616 := Nat.mod_lt _ (by decide)
  omega

/-- A config that keeps the footage of the root directory for `days` days. -/
def daysConfig (days : Nat) : Config where
  server := ⟨(2122, 2132)⟩
  archive := ⟨[sep], days⟩
  limits := ⟨8, none⟩
  camera := []
  group := ∅
  viewer := []
  encryption := none

theorem daysConfig_valid (age : Age) (days : Nat) : (daysConfig days).validate age = .ok () := by
  rfl

/-- The clip of `clipYard`. -/
def clipPlace : Loc := [ofString "c", ofString "d", ofString "x"]

theorem clipPlace_plain : ¬ InQuarantine clipYard [sep] clipPlace ∧ ¬ StagingNamed clipPlace := by
  constructor
  · rintro (hq | ⟨hq, -⟩)
    · exact absurd hq (by decide)
    · exact absurd hq (by decide +kernel)
  · unfold StagingNamed
    decide

/-- A clip that is just older than the period that is computed goes. -/
theorem daysConfig_removes (days : Nat) :
    (cleanup noSweepFault (daysConfig days) false (fromSecs (retentionSecs (daysConfig days)) + 1)
      clipYard).1.entry clipPlace ≠ some (.file 0) := by
  have hwet : (cleanupArgs (daysConfig days) false
      (fromSecs (retentionSecs (daysConfig days)) + 1)).dryRun = false := rfl
  obtain ⟨hok, hexact⟩ := sweep_exact clipYard_place hwet
  obtain ⟨report, hreport, -⟩ := hok (by decide +kernel)
  intro hf
  have hyoung := (((hexact report hreport).1.file clipPlace 0).mp hf).2
  have hne : clipPlace ≠ [] := by simp [clipPlace]
  rw [limit_retention clipYard_place.leads hne clipPlace_plain.1 clipPlace_plain.2] at hyoung
  exact hyoung (Nat.lt_succ_self _)

end Cleanup

/-- **The retention period is kept to exactly when its seconds are a `u64`.** -/
theorem retention_holds_iff (days : Nat) :
    (∀ (age : Age) (cfg : Config), cfg.validate age = .ok () → cfg.archive.retentionDays = days →
      RetentionHolds cfg) ↔ days * 86400 < 18446744073709551616 := by
  constructor
  · intro h
    by_contra hwraps
    have hage := h shiftAge (daysConfig days) (daysConfig_valid _ days) rfl noSweepFault false
      (fromSecs (retentionSecs (daysConfig days)) + 1) clipYard clipPlace 0 (by decide +kernel)
      (daysConfig_removes days) clipPlace_plain.1 clipPlace_plain.2
    have hless :
        retentionSecs (daysConfig days) < (daysConfig days).archive.retentionDays * 86400 :=
      retentionSecs_lt hwraps
    unfold fromSecs at hage
    omega
  · intro hfits age cfg hvalid hdays fault dryRun now t L i hf hgone hq hs
    subst hdays
    rw [← retentionSecs_eq hfits]
    exact cleanup_removes hf hgone hq hs

/-- **A period of more days wraps around**: a config with 213503982334602 days validates,
and a clip is deleted when it is a little older than 61184 seconds. -/
theorem retention_wraps : (daysConfig 213503982334602).validate shiftAge = .ok () ∧
    (cleanup noSweepFault (daysConfig 213503982334602) false (fromSecs 61185) clipYard).2 =
      .ok ⟨[ofString "/c/d/x"], [ofString "/c/d", ofString "/c"]⟩ ∧
    ¬ RetentionHolds (daysConfig 213503982334602) := by
  refine ⟨daysConfig_valid _ _, by decide +kernel, fun h => ?_⟩
  have hage := h noSweepFault false (fromSecs 61185) clipYard clipPlace 0 (by decide +kernel)
    (by decide +kernel) clipPlace_plain.1 clipPlace_plain.2
  exact absurd hage (by decide +kernel)

end Reoftpd
