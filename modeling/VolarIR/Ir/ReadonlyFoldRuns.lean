import VolarIR.Ir.ReadonlyFold
import VolarIR.Opt.ReadonlyFold

/-!
# Runs after folding read-only storage

The image stays in the read-only cells of a run, since no statement writes them. A read is
folded at the cell the run reads when the literal its address comes from fits its type; a
wider literal is masked by the run and not by the pass.
-/
namespace VolarIR.Ir

def IRStmt.writtenStorages : IRStmt → List StorageId
  | .storageWrite storage .. => [storage]
  | .actionStore _ _ _ _ _ targets => targets.map Prod.fst
  | _ => []

section
variable {P : Type}

/-- No statement writes a storage that is declared read-only. -/
def NeverWritten (blocks : IRBlocks P) (access : StorageTable) : Prop :=
  ∀ b ∈ blocks.blocks, ∀ s ∈ b.kinds, ∀ storage ∈ s.writtenStorages,
    access.accessOf storage ≠ .readOnly

/-- The literals a var of a block may stand for: its own, or the element of the image that a
read-only read finds at such a literal. -/
inductive LiteralAt (preInit : List PreInitSegment) (access : StorageTable) (b : IRBlock P) :
    ℕ → Constant → TypeId → Prop
  | const {i : ℕ} {c : Constant} {ty : TypeId} : b.kinds[i]? = some (.const c ty) →
      LiteralAt preInit access b (b.params.length + i) c ty
  | read {i addr : ℕ} {storage : StorageId} {ty addrTy : TypeId} {address value : Constant} :
      b.kinds[i]? = some (.storageRead storage ty addr) → access.accessOf storage = .readOnly →
      LiteralAt preInit access b addr address addrTy →
      readonlyImageValue preInit storage ty address = some value →
      LiteralAt preInit access b (b.params.length + i) value ty

/-- The literal addresses of read-only reads fit their types, unless no cell has them, and what
is read there fits a constant. -/
def AddressesFit (table : TypeTable) (access : StorageTable) (blocks : IRProgram P) : Prop :=
  ∀ b ∈ blocks.blocks, ∀ (storage : StorageId) (ty : TypeId) (addr : ℕ),
    .storageRead storage ty addr ∈ b.kinds → access.accessOf storage = .readOnly →
    ∀ address addrTy, LiteralAt blocks.preInit access b addr address addrTy →
      address.toNat < 2 ^ table.bitWidth addrTy ∧ table.bitWidth ty ≤ 256 ∨
        2 ^ 64 ≤ address.toNat

end

section
variable {table : TypeTable} {preInit : List PreInitSegment} {access : StorageTable}

theorem HoldsImage.update {m : StorageMap} (h : HoldsImage table preInit access m)
    {storage : StorageId} (hstorage : access.accessOf storage ≠ .readOnly) (ty : TypeId) (a : ℕ)
    (bits : List Bool) :
    HoldsImage table preInit access (Function.update m (storage, ty, a) (some bits)) := by
  intro storage' ty' address value hreadOnly hvalue
  have hne : (storage', ty', address.lo.toNat) ≠ (storage, ty, a) := by
    intro heq
    cases heq
    exact hstorage hreadOnly
  rw [Function.update_of_ne hne]
  exact h storage' ty' address value hreadOnly hvalue

theorem HoldsImage.storeTargets {m : StorageMap} (h : HoldsImage table preInit access m)
    (outputs : List (List Bool)) (outputTys : List TypeId) {targets : List (StorageId × Value)}
    (htargets : ∀ e ∈ targets, access.accessOf e.1 ≠ .readOnly) :
    HoldsImage table preInit access (storeTargets table m outputs outputTys targets) := by
  have hzip : ∀ e ∈ outputs.zip (outputTys.zip targets), access.accessOf e.2.2.1 ≠ .readOnly :=
    fun e he => htargets e.2.2 (List.of_mem_zip (List.of_mem_zip he).2).2
  rw [Ir.storeTargets]
  generalize outputs.zip (outputTys.zip targets) = entries at hzip
  induction entries generalizing m with
  | nil => exact h
  | cons e entries ih =>
      exact ih (h.update (hzip e List.mem_cons_self) _ _ _)
        fun d hd => hzip d (List.mem_cons_of_mem e hd)

theorem HoldsImage.evalKind (world : Externals) {σ : EvalState}
    (h : HoldsImage table preInit access σ.storage) {s : IRStmt}
    (hs : ∀ storage ∈ s.writtenStorages, access.accessOf storage ≠ .readOnly) (look : ℕ → Value) :
    HoldsImage table preInit access (evalKind table world σ look s).2.2.storage := by
  cases s with
  | storageWrite storage src ty addr => exact h.update (hs storage List.mem_cons_self) ty _ _
  | actionStore name guard args fallbacks outputTys targets =>
      apply h.storeTargets
      intro e he
      obtain ⟨target, htarget, rfl⟩ := List.mem_map.mp he
      exact hs target.1 (List.mem_map_of_mem htarget)
  | _ => exact h

end

section
variable {P : Type} {table : TypeTable} {preInit : List PreInitSegment} {access : StorageTable}
  {b : IRBlock P} (world : Externals)

/-- The image is in place and every constant known is a literal its var holds. -/
structure SoundState (table : TypeTable) (preInit : List PreInitSegment) (access : StorageTable)
    (b : IRBlock P) (st : ReadonlyState) (rv : ℕ) (f : Ssa.Frame Value EvalState) : Prop where
  length : f.vals.length = rv
  image : HoldsImage table preInit access f.st.storage
  lt : ∀ v c, st.constants.lookup v = some c → v < rv
  literal : ∀ v c, st.constants.lookup v = some c → ∃ ty, LiteralAt preInit access b v c ty ∧
    (Ssa.look f.vals v).bits = constBits c (table.bitWidth ty)

theorem SoundState.step {st : ReadonlyState} {rv : ℕ} {f : Ssa.Frame Value EvalState}
    (h : SoundState table preInit access b st rv f) {s : IRStmt}
    (hs : ∀ storage ∈ s.writtenStorages, access.accessOf storage ≠ .readOnly) :
    SoundState table preInit access b st (rv + 1) ((language table world).step f s) where
  length := by rw [Ssa.Language.step_length, h.length]
  image := h.image.evalKind world hs _
  lt := fun v c hc => (h.lt v c hc).trans (Nat.lt_succ_self rv)
  literal := by
    intro v c hc
    rw [Ssa.Language.step_look _ (by rw [h.length]; exact h.lt v c hc)]
    exact h.literal v c hc

/-- The state after a statement whose result has become known. -/
theorem SoundState.learn {st : ReadonlyState} {rv : ℕ} {f : Ssa.Frame Value EvalState}
    (h : SoundState table preInit access b st rv f) {s : IRStmt}
    (hs : ∀ storage ∈ s.writtenStorages, access.accessOf storage ≠ .readOnly) {value : Constant}
    {ty : TypeId} {changed : Bool} (hliteral : LiteralAt preInit access b rv value ty)
    (hbits : (evalKind table world f.st (Ssa.look f.vals) s).1 =
      constBits value (table.bitWidth ty)) :
    SoundState table preInit access b ⟨(rv, value) :: st.constants, changed⟩ (rv + 1)
      ((language table world).step f s) where
  length := (h.step world hs).length
  image := (h.step world hs).image
  lt := by
    intro v c hc
    rw [List.lookup_cons] at hc
    split at hc
    case h_1 heq =>
      rw [eq_of_beq heq]
      exact Nat.lt_succ_self rv
    case h_2 => exact (h.lt v c hc).trans (Nat.lt_succ_self rv)
  literal := by
    intro v c hc
    rw [List.lookup_cons] at hc
    split at hc
    case h_1 heq =>
      rw [eq_of_beq heq, ← Option.some.inj hc]
      refine ⟨ty, hliteral, ?_⟩
      have hlast := Ssa.look_append_length f.vals
        ((language table world).eval f.st (Ssa.look f.vals) s).1
      rw [h.length] at hlast
      rw [Ssa.Language.step, hlast]
      exact hbits
    case h_2 => exact (h.step world hs).literal v c hc

/-- The statement stands at `rv`, writes no read-only storage and reads none at a literal
that is too wide for its type. -/
structure Placed (table : TypeTable) (preInit : List PreInitSegment) (access : StorageTable)
    (b : IRBlock P) (rv : ℕ) (node : Node IRStmt P) : Prop where
  place : ∃ i, rv = b.params.length + i ∧ b.kinds[i]? = some node.kind
  unwritten : ∀ storage ∈ node.kind.writtenStorages, access.accessOf storage ≠ .readOnly
  fits : ∀ storage ty addr, node.kind = .storageRead storage ty addr →
    access.accessOf storage = .readOnly → ∀ address addrTy,
    LiteralAt preInit access b addr address addrTy →
      address.toNat < 2 ^ table.bitWidth addrTy ∨ 2 ^ 64 ≤ address.toNat

/-- A read at a literal that fits its type finds the element of the image. -/
theorem read_image {m : StorageMap} (h : HoldsImage table preInit access m)
    {storage : StorageId} (hreadOnly : access.accessOf storage = .readOnly) {ty addrTy : TypeId}
    {address value : Constant}
    (hfits : address.toNat < 2 ^ table.bitWidth addrTy ∨ 2 ^ 64 ≤ address.toNat)
    (hvalue : readonlyImageValue preInit storage ty address = some value) :
    (m (storage, ty, bitsToU64 (constBits address (table.bitWidth addrTy)))).getD
        (List.replicate (table.bitWidth ty) false) = constBits value (table.bitWidth ty) := by
  have hnarrow : address.toNat = address.lo.toNat ∧ address.lo.toNat < 2 ^ 64 := by
    unfold readonlyImageValue at hvalue
    split at hvalue
    case isTrue => cases hvalue
    case isFalse hnarrow =>
      rw [not_or, not_not, Nat.not_le] at hnarrow
      refine ⟨?_, hnarrow.2⟩
      rw [Constant.toNat, hnarrow.1]
      simp
  have hwidth : address.toNat < 2 ^ table.bitWidth addrTy := by
    cases hfits with
    | inl hlt => exact hlt
    | inr hle => omega
  rw [bitsToU64_constBits hwidth, hnarrow.1, Nat.mod_eq_of_lt hnarrow.2]
  exact h storage ty address value hreadOnly hvalue

/-- A folded statement steps as the original, and what the sweep then knows is true. -/
theorem foldReadonlyStmt_step {st : ReadonlyState} {rv : ℕ} {f : Ssa.Frame Value EvalState}
    {node : Node IRStmt P} (h : SoundState table preInit access b st rv f)
    (hnode : Placed table preInit access b rv node) :
    (language table world).step f (foldReadonlyStmt preInit access st rv node).1.kind =
        (language table world).step f node.kind ∧
      SoundState table preInit access b (foldReadonlyStmt preInit access st rv node).2 (rv + 1)
        ((language table world).step f node.kind) := by
  obtain ⟨i, rfl, hplace⟩ := hnode.place
  have hunwritten := hnode.unwritten
  unfold foldReadonlyStmt
  split
  case h_1 value ty hreplace =>
    cases hkind : node.kind with
    | storageRead storage ty' addr =>
        rw [hkind, readonlyReplacement] at hreplace
        split at hreplace
        case isTrue hreadOnly =>
          obtain ⟨address, haddr, hreplace⟩ := Option.bind_eq_some_iff.mp hreplace
          obtain ⟨value', hvalue, hpair⟩ := Option.bind_eq_some_iff.mp hreplace
          cases hpair
          obtain ⟨addrTy, hliteral, hbits⟩ := h.literal addr address haddr
          have hfits := hnode.fits storage ty addr hkind hreadOnly address addrTy hliteral
          have hread : evalKind table world f.st (Ssa.look f.vals) (.storageRead storage ty addr) =
              (constBits value (table.bitWidth ty), [], f.st) := by
            rw [evalKind, hbits, read_image h.image hreadOnly hfits hvalue]
          rw [hkind] at hplace hunwritten
          constructor
          · simp only [Ssa.Language.step, language, evalStmt, hread]
            rfl
          · exact h.learn world hunwritten (.read hplace hreadOnly hliteral hvalue)
              (by rw [hread])
        case isFalse => cases hreplace
    | _ =>
        rw [hkind] at hreplace
        cases hreplace
  case h_2 =>
    split
    case h_1 value ty hkind =>
      rw [hkind] at hplace hunwritten ⊢
      exact ⟨rfl, h.learn world hunwritten (.const hplace) rfl⟩
    case h_2 => exact ⟨rfl, h.step world hunwritten⟩

theorem HoldsImage.run {f : Ssa.Frame Value EvalState}
    (h : HoldsImage table preInit access f.st.storage) {stmts : List IRStmt}
    (hs : ∀ s ∈ stmts, ∀ storage ∈ s.writtenStorages, access.accessOf storage ≠ .readOnly) :
    HoldsImage table preInit access ((language table world).run f stmts).st.storage := by
  induction stmts generalizing f with
  | nil => exact h
  | cons s rest ih =>
      have hfirst := hs s List.mem_cons_self
      have hrest : ∀ t ∈ rest, ∀ storage ∈ t.writtenStorages, access.accessOf storage ≠ .readOnly :=
        fun t ht => hs t (List.mem_cons_of_mem s ht)
      rw [Ssa.Language.run_cons]
      exact ih (h.evalKind world hfirst _) hrest

/-- A folded block ends in the frame of the original. -/
theorem blockFrame_foldReadonlyBlock {args : List (List Bool)} {σ : EvalState}
    (hargs : args.length = b.params.length) (h : HoldsImage table preInit access σ.storage)
    (hb : ∀ i node, b.stmts[i]? = some node →
      Placed table preInit access b (b.params.length + i) node) :
    blockFrame table world (foldReadonlyBlock preInit access b).1 args σ =
      blockFrame table world b args σ := by
  have hstart : SoundState table preInit access b ⟨[], false⟩ b.params.length
      ⟨paramValues b.params args, σ⟩ := ⟨length_paramValues hargs, h, nofun, nofun⟩
  rw [blockFrame, blockFrame, Ssa.Language.run, Ssa.Language.run, IRBlock.kinds, IRBlock.kinds,
    List.foldl_map, List.foldl_map]
  exact Sweep.foldl_rewriteFrom
    (fun f (node : Node IRStmt P) => (language table world).step f node.kind)
    (SoundState table preInit access b) (Placed table preInit access b)
    (fun st rv f node hst hnode => foldReadonlyStmt_step world hst hnode) hb hstart

theorem evalBlock_foldReadonlyBlock {σ : EvalState}
    (h : HoldsImage table preInit access σ.storage)
    (hb : ∀ i node, b.stmts[i]? = some node →
      Placed table preInit access b (b.params.length + i) node) (args : List (List Bool)) :
    evalBlock table world (foldReadonlyBlock preInit access b).1 args σ =
      evalBlock table world b args σ := by
  unfold evalBlock
  split
  case isTrue hargs =>
    have hlength : args.length = b.params.length := hargs
    rw [if_pos hlength]
    simp only [blockFrame_foldReadonlyBlock world hlength h hb]
    rfl
  case isFalse hargs => rw [if_neg (show ¬ args.length = b.params.length from hargs)]

theorem HoldsImage.evalBlock
    (hs : ∀ s ∈ b.kinds, ∀ storage ∈ s.writtenStorages, access.accessOf storage ≠ .readOnly)
    {σ σ' : EvalState} (h : HoldsImage table preInit access σ.storage) {args : List (List Bool)}
    {result : BlockResult} (heval : Ir.evalBlock table world b args σ = some (result, σ')) :
    HoldsImage table preInit access σ'.storage := by
  unfold Ir.evalBlock at heval
  split at heval
  case isTrue =>
    obtain ⟨_, _, hr⟩ := Option.map_eq_some_iff.mp heval
    cases hr
    exact HoldsImage.run world (f := ⟨paramValues b.params args, σ⟩) h hs
  case isFalse => cases heval

end

section
variable {P : Type} {table : TypeTable} {access : StorageTable} {blocks : IRProgram P}
  (world : Externals)

def ConfigHolds (table : TypeTable) (preInit : List PreInitSegment) (access : StorageTable) :
    Config → Prop
  | .running _ _ σ => HoldsImage table preInit access σ.storage
  | .returned .. | .stuck => True

theorem placed_of_fit (hs : NeverWritten blocks.toIRBlocks access)
    (hfit : AddressesFit table access blocks) {b : IRBlock P} (hb : b ∈ blocks.blocks) :
    ∀ i node, b.stmts[i]? = some node →
      Placed table blocks.preInit access b (b.params.length + i) node := by
  intro i node hnode
  have hkind : b.kinds[i]? = some node.kind := by
    rw [IRBlock.kinds, List.getElem?_map, hnode]
    rfl
  exact {
    place := ⟨i, rfl, hkind⟩
    unwritten := hs b hb node.kind (List.mem_of_getElem? hkind)
    fits := fun storage ty addr heq hreadOnly address addrTy hliteral =>
      (hfit b hb storage ty addr (heq ▸ List.mem_of_getElem? hkind) hreadOnly address addrTy
        hliteral).imp And.left id }

/-- From a configuration that holds the image, both programs step alike, and the image stays. -/
theorem stepBlock_foldReadonlyBlocks (hs : NeverWritten blocks.toIRBlocks access)
    (hfit : AddressesFit table access blocks) {c : Config}
    (h : ConfigHolds table blocks.preInit access c) :
    stepBlock table world (foldReadonlyBlocks blocks access).1.toIRBlocks c =
        stepBlock table world blocks.toIRBlocks c ∧
      ConfigHolds table blocks.preInit access (stepBlock table world blocks.toIRBlocks c) := by
  cases c with
  | returned vals σ => exact ⟨rfl, trivial⟩
  | stuck => exact ⟨rfl, trivial⟩
  | running cur args σ =>
      have hget : (foldReadonlyBlocks blocks access).1.blocks[cur]? =
          blocks.blocks[cur]?.map fun b => (foldReadonlyBlock blocks.preInit access b).1 := by
        simp [foldReadonlyBlocks, Function.comp_def]
      have henter : HoldsImage table blocks.preInit access (σ.enter cur).storage := h
      cases hcur : blocks.blocks[cur]? with
      | none =>
          rw [hcur] at hget
          simp only [stepBlock, hget, hcur, Option.map_none]
          exact ⟨trivial, trivial⟩
      | some b =>
          have hmem := List.mem_of_getElem? hcur
          have hplaced := placed_of_fit hs hfit hmem
          rw [hcur, Option.map_some] at hget
          simp only [stepBlock, hget, hcur, evalBlock_foldReadonlyBlock world henter hplaced args]
          cases heval : evalBlock table world b args (σ.enter cur) with
          | none => exact ⟨trivial, trivial⟩
          | some r =>
              obtain ⟨result, σ'⟩ := r
              have hkept := HoldsImage.evalBlock world (hs b hmem) henter heval
              cases result with
              | ret vals => exact ⟨trivial, trivial⟩
              | jump target args' => exact ⟨trivial, hkept⟩

theorem runBlocks_foldReadonlyBlocks (hs : NeverWritten blocks.toIRBlocks access)
    (hrange : ∀ seg ∈ blocks.preInit, seg.InRange table)
    (hfit : AddressesFit table access blocks) (inputs : List (List Bool)) (budget : ℕ) :
    runBlocks table world (foldReadonlyBlocks blocks access).1.toIRBlocks budget
        ((foldReadonlyBlocks blocks access).1.initial table inputs) =
      runBlocks table world blocks.toIRBlocks budget (blocks.initial table inputs) :=
  Sweep.iterate_eq (fun _ hc => stepBlock_foldReadonlyBlocks world hs hfit hc) budget
    (holdsImage_applyPreInit table blocks.preInit hrange access)

end

theorem readonlyImageValue_fits {table : TypeTable} {preInit : List PreInitSegment}
    (hdata : ∀ seg ∈ preInit, ∀ c ∈ seg.data, c.toNat < 2 ^ table.bitWidth seg.ty)
    {storage : StorageId} {ty : TypeId} {address value : Constant}
    (h : readonlyImageValue preInit storage ty address = some value) :
    value.toNat < 2 ^ table.bitWidth ty := by
  have hfold : ∀ (segments : List PreInitSegment) (c : Constant),
      (∀ seg ∈ segments, ∀ c ∈ seg.data, c.toNat < 2 ^ table.bitWidth seg.ty) →
      c.toNat < 2 ^ table.bitWidth ty →
      (segments.foldl (fun value segment =>
        if segment.storage ≠ storage ∨ segment.ty ≠ ty then value
        else if segment.offset ≤ address.lo.toNat then
          segment.data[address.lo.toNat - segment.offset]?.getD value
        else value) c).toNat < 2 ^ table.bitWidth ty := by
    intro segments
    induction segments with
    | nil => exact fun c _ hc => hc
    | cons seg segments ih =>
        intro c hall hc
        rw [List.foldl_cons]
        apply ih _ fun d hd => hall d (List.mem_cons_of_mem seg hd)
        split
        case isTrue => exact hc
        case isFalse hsame =>
          rw [not_or, not_not, not_not] at hsame
          split
          case isTrue =>
            cases hget : seg.data[address.lo.toNat - seg.offset]? with
            | none => exact hc
            | some d =>
                rw [← hsame.2]
                exact hall seg List.mem_cons_self d (List.mem_of_getElem? hget)
          case isFalse => exact hc
  unfold readonlyImageValue at h
  split at h
  case isTrue => cases h
  case isFalse =>
    rw [← Option.some.inj h]
    exact hfold preInit .zero hdata (Nat.two_pow_pos _)

/-- In a program of masked literals and of narrow reads every literal address fits its type. -/
theorem AddressesFit.of_masked {P : Type} {table : TypeTable} {access : StorageTable}
    {blocks : IRProgram P}
    (hconst : ∀ b ∈ blocks.blocks, ∀ s ∈ b.kinds, ∀ c ty, s = .const c ty →
      c.toNat < 2 ^ table.bitWidth ty)
    (hdata : ∀ seg ∈ blocks.preInit, ∀ c ∈ seg.data, c.toNat < 2 ^ table.bitWidth seg.ty)
    (hread : ∀ b ∈ blocks.blocks, ∀ s ∈ b.kinds, ∀ storage ty addr,
      s = .storageRead storage ty addr → table.bitWidth ty ≤ 256) :
    AddressesFit table access blocks := by
  intro b hb storage ty addr hmem _ address addrTy hliteral
  refine .inl ⟨?_, hread b hb _ hmem storage ty addr rfl⟩
  cases hliteral with
  | const hkind => exact hconst b hb _ (List.mem_of_getElem? hkind) _ _ rfl
  | read _ _ _ hvalue => exact readonlyImageValue_fits hdata hvalue

/-- From the image, a program whose read-only storage has been folded runs as the original:
every Boolar program whose ids fit, and every typed one whose literal addresses fit their types
as well. -/
theorem foldReadonly_preserves_runs (access : StorageTable) :
    (∀ {P : Type} (blocks : Boolar.BIrBlocks P), Opt.NeverWritten blocks access →
      (∀ b ∈ blocks.blocks, b.IdsFit) →
      ∃ out changed, Opt.foldReadonlyStorage blocks access = some (out, changed) ∧
        ∀ (world : Boolar.Externals) (inputs : List Bool) (budget : ℕ),
          Boolar.runBlocks world out budget
              (.running 0 inputs (.init (Boolar.applyPreInit .empty out.preInit))) =
            Boolar.runBlocks world blocks budget
              (.running 0 inputs (.init (Boolar.applyPreInit .empty blocks.preInit)))) ∧
    ∀ {P : Type} (table : TypeTable) (blocks : IRProgram P),
      NeverWritten blocks.toIRBlocks access → (∀ b ∈ blocks.blocks, b.IdsFit) →
      (∀ seg ∈ blocks.preInit, seg.InRange table) → AddressesFit table access blocks →
      ∃ out changed, foldReadonlyStorage blocks access = some (out, changed) ∧
        ∀ (world : Externals) (inputs : List (List Bool)) (budget : ℕ),
          runBlocks table world out.toIRBlocks budget (out.initial table inputs) =
            runBlocks table world blocks.toIRBlocks budget (blocks.initial table inputs) := by
  constructor
  · intro P blocks hs hids
    refine ⟨_, _, by rw [Opt.foldReadonlyStorage, if_pos hids], fun world inputs budget => ?_⟩
    exact Opt.runBlocks_foldReadonlyBlocks world hs inputs budget
  · intro P table blocks hs hids hrange hfit
    refine ⟨_, _, by rw [foldReadonlyStorage, if_pos hids], fun world inputs budget => ?_⟩
    exact runBlocks_foldReadonlyBlocks world hs hrange hfit inputs budget

def bitTable : TypeTable := ⟨[.primitive .bit]⟩

/-- Two storages that are only read. -/
def twoReadonly : StorageTable := ⟨[⟨⟨0⟩, .readOnly⟩, ⟨⟨1⟩, .readOnly⟩]⟩

/-- A read of one storage at the element that the other one holds at zero. -/
def chainedRead (element : Constant) : IRProgram Unit where
  blocks := [{
    params := []
    stmts := [
      ⟨.const .zero ⟨0⟩, (), none⟩,
      ⟨.storageRead ⟨0⟩ ⟨0⟩ 0, (), none⟩,
      ⟨.storageRead ⟨1⟩ ⟨0⟩ 1, (), none⟩]
    terminator := .jmp ⟨.ret, [2]⟩ }]
  preInit := [⟨⟨0⟩, ⟨0⟩, 0, [element]⟩, ⟨⟨1⟩, ⟨0⟩, 1, [⟨0, 1⟩, ⟨0, 1⟩]⟩]

theorem chainedRead_neverWritten (element : Constant) :
    NeverWritten (chainedRead element).toIRBlocks twoReadonly := by
  intro b hb s hs storage hstorage
  simp only [chainedRead, List.mem_singleton] at hb
  subst hb
  simp only [IRBlock.kinds, List.map_cons, List.map_nil, List.mem_cons, List.not_mem_nil,
    or_false] at hs
  rcases hs with rfl | rfl | rfl <;> cases hstorage

def mute : Externals := ⟨fun _ _ _ _ => [], fun _ _ _ => [], fun _ _ _ => []⟩

theorem chainedRead_folds_rightly :
    ∃ out changed, foldReadonlyStorage (chainedRead ⟨0, 1⟩) twoReadonly = some (out, changed) ∧
      ∀ (world : Externals) (inputs : List (List Bool)) (budget : ℕ),
        runBlocks bitTable world out.toIRBlocks budget (out.initial bitTable inputs) =
          runBlocks bitTable world (chainedRead ⟨0, 1⟩).toIRBlocks budget
            ((chainedRead ⟨0, 1⟩).initial bitTable inputs) := by
  have hmasked : AddressesFit bitTable twoReadonly (chainedRead ⟨0, 1⟩) := by
    apply AddressesFit.of_masked
    · intro b hb s hs c ty hc
      simp only [chainedRead, List.mem_singleton] at hb
      subst hb hc
      simp only [IRBlock.kinds, List.map_cons, List.map_nil, List.mem_cons, List.not_mem_nil,
        or_false, reduceCtorEq, IRStmt.const.injEq] at hs
      rw [hs.1, hs.2]
      decide
    · decide
    · intro b hb s hs storage ty addr hread
      simp only [chainedRead, List.mem_singleton] at hb
      subst hb hread
      simp only [IRBlock.kinds, List.map_cons, List.map_nil, List.mem_cons, List.not_mem_nil,
        or_false, reduceCtorEq, false_or, IRStmt.storageRead.injEq] at hs
      rcases hs with ⟨-, rfl, -⟩ | ⟨-, rfl, -⟩
      · decide
      · decide
  exact (foldReadonly_preserves_runs twoReadonly).2 bitTable (chainedRead ⟨0, 1⟩)
    (chainedRead_neverWritten _) (by decide) (by decide) hmasked

/-- An element two of a bit storage is masked to zero by the run and read as two by the fold. -/
theorem chainedRead_folds_wrongly :
    (∀ b ∈ (chainedRead ⟨0, 2⟩).blocks, b.WellFormed) ∧
      NeverWritten (chainedRead ⟨0, 2⟩).toIRBlocks twoReadonly ∧
      ∃ σ out changed, runBlocks bitTable mute (chainedRead ⟨0, 2⟩).toIRBlocks 1
          ((chainedRead ⟨0, 2⟩).initial bitTable []) = .returned [[false]] σ ∧
        foldReadonlyStorage (chainedRead ⟨0, 2⟩) twoReadonly = some (out, changed) ∧
        runBlocks bitTable mute out.toIRBlocks 1 (out.initial bitTable []) =
          .returned [[true]] σ := by
  refine ⟨by decide, chainedRead_neverWritten _, _,
    (foldReadonlyBlocks (chainedRead ⟨0, 2⟩) twoReadonly).1, true, rfl, ?_, rfl⟩
  rw [foldReadonlyStorage, if_pos (by decide)]
  rfl

end VolarIR.Ir
