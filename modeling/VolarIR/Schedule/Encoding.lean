import VolarIR.Library.PrefixCode
import VolarIR.Schedule.Manifest

/-!
# The canonical byte encoding of a manifest

Fixed-width little-endian fields, three levels of length-prefixed lists and a tagged
address scope behind a domain-separation string. Each encoder reveals the value it is given,
so the bytes bind the whole manifest and no encoding is a proper prefix of another.
-/
namespace VolarIR.Schedule

open PrefixCode

abbrev Bytes := List (BitVec 8)

abbrev Pushed := Except ManifestError Bytes

/-- `b"volar.schedule\0"`. -/
def domainTag : Bytes := "volar.schedule\x00".toList.map fun c => BitVec.ofNat 8 c.toNat

def pushU16 (value : Fin (2 ^ 16)) : Pushed := .ok (leBytes 2 value.val)

def pushU32 (value : U32) : Pushed := .ok (leBytes 4 value.val)

def pushU64 (value : U64) : Pushed := .ok (leBytes 8 value.val)

/-- A length, as long as it fits `u64`. -/
def pushLen (value : ℕ) : Pushed :=
  if h : value < 2 ^ 64 then pushU64 ⟨value, h⟩ else .error .lengthOverflow

def pushRange (range : OrdinalRange) : Pushed := chain [pushU64 range.start, pushU64 range.len]

def pushDigest (digest : Digest) : Pushed := .ok digest.toList

def pushMode (mode : StorageClaimMode) : Pushed :=
  .ok [match mode with
    | .read => 0
    | .write => 1
    | .unknown => 2]

def pushScope : AddressScope → Pushed
  | .whole => .ok [0]
  | .publicRange start len => chain [.ok [1], pushU64 start, pushU64 len]

def pushClaim (claim : StorageClaim) : Pushed :=
  chain [pushU32 claim.key.storage, pushU32 claim.key.typeId, pushMode claim.mode,
    pushScope claim.scope]

def pushIteration (iteration : IterationManifest) : Pushed :=
  chain [pushU64 iteration.ordinal.id, pushU64 iteration.logicalStep,
    pushU32 iteration.workerLane.id,
    list pushLen (fun dependency => pushU64 dependency.id) iteration.dependencies,
    list pushLen pushClaim iteration.claims,
    pushRange iteration.correlationRange, pushRange iteration.communicationRange]

def pushEpoch (epoch : EpochManifest) : Pushed :=
  chain [pushU64 epoch.ordinal.id, pushU64 epoch.communicationGroup.id,
    list pushLen pushIteration epoch.iterations]

/-- Everything `canonical_bytes` writes after validation. -/
def pushManifest (manifest : ScheduleManifest) : Pushed :=
  chain [.ok domainTag, pushU16 manifest.formatVersion, pushDigest manifest.programDigest,
    pushDigest manifest.storagePolicyDigest, pushU32 manifest.protocolProfile,
    pushU32 manifest.epochSize, pushU32 manifest.workerLaneCount,
    list pushLen pushEpoch manifest.epochs]

def ScheduleManifest.canonicalBytes (manifest : ScheduleManifest) (limits : ScheduleLimits) :
    Pushed := do
  manifest.validate limits
  pushManifest manifest

section Scalars

theorem reveals_pushU16 : Reveals pushU16 id :=
  (reveals_leBytes fun value : Fin (2 ^ 16) => value.isLt).of_view fun _ _ => Fin.ext

theorem reveals_pushU32 : Reveals pushU32 id :=
  (reveals_leBytes fun value : U32 => value.isLt).of_view fun _ _ => Fin.ext

theorem reveals_pushU64 : Reveals pushU64 id :=
  (reveals_leBytes fun value : U64 => value.isLt).of_view fun _ _ => Fin.ext

theorem reveals_pushDependency :
    Reveals (fun dependency : IterationId => pushU64 dependency.id) id :=
  (reveals_pushU64.field IterationId.id).of_view fun a b h => by
    cases a
    cases b
    exact congrArg IterationId.mk h

theorem reveals_pushLen : Reveals pushLen id := by
  intro a b x y r s ha hb h
  unfold pushLen at ha hb
  split_ifs at ha hb with hla hlb
  have hvalue := reveals_pushU64 ha hb h
  exact ⟨congrArg Fin.val hvalue.1, hvalue.2⟩

theorem reveals_pushDigest : Reveals pushDigest id :=
  Reveals.fixed 32 (fun digest => digest.size_toArray) fun _ _ h => Vector.toList_inj.mp h

theorem reveals_pushMode : Reveals pushMode id :=
  Reveals.fixed 1 (fun _ => rfl) fun a b h => by
    cases a <;> cases b <;> first | rfl | exact absurd h (by decide)

theorem reveals_tag {α : Type} (tag : Bytes) :
    Reveals (fun _ : α => (.ok tag : Pushed)) fun _ => () :=
  Reveals.fixed tag.length (fun _ => rfl) fun _ _ _ => rfl

end Scalars

section Records

theorem reveals_pushRange : Reveals pushRange id :=
  Reveals.of_view
    ((reveals_pushU64.field OrdinalRange.start).cons
      ((reveals_pushU64.field OrdinalRange.len).cons Reveals.nil))
    fun a b h => by
      cases a
      cases b
      simpa using h

theorem reveals_pushScope : Reveals pushScope id := by
  have hrange : Reveals (fun range : U64 × U64 =>
      chain [(.ok [1] : Pushed), pushU64 range.1, pushU64 range.2]) _ :=
    (reveals_tag [1]).cons ((reveals_pushU64.field Prod.fst).cons
      ((reveals_pushU64.field Prod.snd).cons Reveals.nil))
  intro a b x y r s ha hb h
  cases a with
  | whole =>
      cases b with
      | whole =>
          cases ha
          cases hb
          exact ⟨rfl, List.append_cancel_left h⟩
      | publicRange start len =>
          cases ha
          cases hb
          exact absurd (List.cons.inj h).1 (by decide)
  | publicRange start len =>
      cases b with
      | whole =>
          cases ha
          cases hb
          exact absurd (List.cons.inj h).1 (by decide)
      | publicRange start' len' =>
          have hview := hrange (a := (start, len)) (b := (start', len')) ha hb h
          simp only [Prod.mk.injEq, id, and_true, true_and] at hview
          exact ⟨by rw [hview.1.1, hview.1.2], hview.2⟩

theorem reveals_pushClaim : Reveals pushClaim id :=
  Reveals.of_view
    ((reveals_pushU32.field fun claim : StorageClaim => claim.key.storage).cons
      ((reveals_pushU32.field fun claim => claim.key.typeId).cons
        ((reveals_pushMode.field StorageClaim.mode).cons
          ((reveals_pushScope.field StorageClaim.scope).cons Reveals.nil))))
    fun a b h => by
      obtain ⟨⟨_, _⟩, _, _⟩ := a
      obtain ⟨⟨_, _⟩, _, _⟩ := b
      simp only [Prod.mk.injEq, id, and_true] at h
      simp only [id, StorageClaim.mk.injEq, StorageKey.mk.injEq]
      exact ⟨⟨h.1, h.2.1⟩, h.2.2.2, h.2.2.1⟩

theorem reveals_pushIteration : Reveals pushIteration id :=
  Reveals.of_view
    ((reveals_pushU64.field fun iteration : IterationManifest => iteration.ordinal.id).cons
      ((reveals_pushU64.field IterationManifest.logicalStep).cons
        ((reveals_pushU32.field fun iteration => iteration.workerLane.id).cons
          (((reveals_pushLen.list reveals_pushDependency).field
              IterationManifest.dependencies).cons
            (((reveals_pushLen.list reveals_pushClaim).field IterationManifest.claims).cons
              ((reveals_pushRange.field IterationManifest.correlationRange).cons
                ((reveals_pushRange.field IterationManifest.communicationRange).cons
                  Reveals.nil)))))))
    fun a b h => by
      obtain ⟨⟨_⟩, _, ⟨_⟩, _, _, _, _⟩ := a
      obtain ⟨⟨_⟩, _, ⟨_⟩, _, _, _, _⟩ := b
      simp only [Prod.mk.injEq, id, List.map_id, and_true] at h
      simp only [id, IterationManifest.mk.injEq, IterationId.mk.injEq, WorkerLane.mk.injEq]
      exact h

theorem reveals_pushEpoch : Reveals pushEpoch id :=
  Reveals.of_view
    ((reveals_pushU64.field fun epoch : EpochManifest => epoch.ordinal.id).cons
      ((reveals_pushU64.field fun epoch => epoch.communicationGroup.id).cons
        (((reveals_pushLen.list reveals_pushIteration).field EpochManifest.iterations).cons
          Reveals.nil)))
    fun a b h => by
      obtain ⟨⟨_⟩, _, ⟨_⟩⟩ := a
      obtain ⟨⟨_⟩, _, ⟨_⟩⟩ := b
      simp only [Prod.mk.injEq, id, List.map_id, and_true] at h
      rw [h.1, h.2.1, h.2.2]

theorem reveals_pushManifest : Reveals pushManifest id :=
  Reveals.of_view
    ((reveals_tag domainTag).cons
      ((reveals_pushU16.field ScheduleManifest.formatVersion).cons
        ((reveals_pushDigest.field ScheduleManifest.programDigest).cons
          ((reveals_pushDigest.field ScheduleManifest.storagePolicyDigest).cons
            ((reveals_pushU32.field ScheduleManifest.protocolProfile).cons
              ((reveals_pushU32.field ScheduleManifest.epochSize).cons
                ((reveals_pushU32.field ScheduleManifest.workerLaneCount).cons
                  (((reveals_pushLen.list reveals_pushEpoch).field
                    ScheduleManifest.epochs).cons Reveals.nil))))))))
    fun a b h => by
      cases a
      cases b
      simpa [and_assoc] using h

end Records

theorem pushManifest_of_canonicalBytes {manifest : ScheduleManifest} {limits : ScheduleLimits}
    {bytes : Bytes} (h : manifest.canonicalBytes limits = .ok bytes) :
    pushManifest manifest = .ok bytes := by
  obtain ⟨_, _, hpush⟩ := Except.bind_eq_ok.mp h
  exact hpush

/-- Equal canonical bytes come from equal manifests, and no encoding is a proper prefix of
another one. -/
theorem canonicalBytes_binds (left right : ScheduleManifest)
    (leftLimits rightLimits : ScheduleLimits) (leftBytes rightBytes : Bytes)
    (hl : left.canonicalBytes leftLimits = .ok leftBytes)
    (hr : right.canonicalBytes rightLimits = .ok rightBytes) :
    (leftBytes = rightBytes → left = right) ∧
      (leftBytes <+: rightBytes → leftBytes = rightBytes) := by
  have hpl := pushManifest_of_canonicalBytes hl
  have hpr := pushManifest_of_canonicalBytes hr
  constructor
  · intro h
    subst h
    exact reveals_pushManifest.injective hpl hpr
  · exact reveals_pushManifest.eq_of_prefix hpl hpr

/-- One epoch of two iterations: the second reads a public range the first does not touch
and waits for the first where `waits` says so. -/
def pairManifest (waits : Bool) : ScheduleManifest where
  formatVersion := scheduleManifestVersion
  programDigest := Vector.replicate 32 1
  storagePolicyDigest := Vector.replicate 32 2
  protocolProfile := 7
  epochSize := 4
  workerLaneCount := 2
  epochs := [⟨⟨0⟩,
    [⟨⟨0⟩, 100, ⟨0⟩, [], [.whole ⟨4, 1⟩ .write], ⟨0, 0⟩, ⟨0, 1⟩⟩,
      ⟨⟨1⟩, 101, ⟨1⟩, if waits then [⟨0⟩] else [], [⟨⟨8, 1⟩, .publicRange 0 4, .read⟩],
        ⟨0, 2⟩, ⟨1, 1⟩⟩], ⟨3⟩⟩]

/-- The bytes of `pairManifest`. -/
def pairBytes (waits : Bool) : Bytes :=
  match pushManifest (pairManifest waits) with
  | .ok bytes => bytes
  | .error _ => []

theorem canonicalBytes_pairManifest (waits : Bool) :
    (pairManifest waits).canonicalBytes .default = .ok (pairBytes waits) := by
  cases waits <;> rfl

theorem canonicalBytes_binds_pairManifest :
    (pairBytes true = pairBytes false → pairManifest true = pairManifest false) ∧
      (pairBytes true <+: pairBytes false → pairBytes true = pairBytes false) :=
  canonicalBytes_binds _ _ .default .default _ _ (canonicalBytes_pairManifest true)
    (canonicalBytes_pairManifest false)

end VolarIR.Schedule
