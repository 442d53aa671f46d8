import VolarIR.Boolar.Eval
import VolarIR.Opt.Alias

/-!
# Boolar store-to-load forwarding within a block

`store_forward_biir_block_with_cache` of `volar-ir-opt/src/store_forward.rs`, the whole of
`store_forward_biir_blocks` on a single block. A cache remembers which var was last
written to which address; a read of a cached address becomes an alias of that var.
-/
namespace VolarIR.Opt
open Boolar

/-- `MAX_CONCURRENT_STORES`. -/
def maxConcurrentStores : ℕ := 16

/-- `(StorageId, LaneId, Vec<IRVarId>)`. -/
abbrev StoreKey := StorageId × LaneId × List ℕ

abbrev BiirStoreCache := List (StoreKey × ℕ)

structure ForwardState where
  cache : BiirStoreCache
  aliasMap : AliasMap
  knownMap : List (ℕ × Option Bool)
  changed : Bool

/-- `known_map.get(v).copied().flatten()`. -/
def knownBit (known : List (ℕ × Option Bool)) (v : ℕ) : Option Bool := (known.lookup v).join

/-- `biir_addrs_provably_different`. -/
def addrsProvablyDifferent (known : List (ℕ × Option Bool)) (a b : List ℕ) : Bool :=
  if a.length ≠ b.length then true
  else (a.zip b).any fun (x, y) =>
    x ≠ y && match knownBit known x, knownBit known y with
      | some true, some false | some false, some true => true
      | _, _ => false

/-- The known-bits update: the constant a statement is known to evaluate to. -/
def knownOf (known : List (ℕ × Option Bool)) (aliases : AliasMap) : Stmt → Option Bool
  | .zero => some false
  | .one => some true
  | .not a => (knownBit known (canonAlias aliases a)).map not
  | .and a b =>
      match knownBit known (canonAlias aliases a), knownBit known (canonAlias aliases b) with
      | some false, _ | _, some false => some false
      | some true, some true => some true
      | _, _ => none
  | .or a b =>
      match knownBit known (canonAlias aliases a), knownBit known (canonAlias aliases b) with
      | some true, _ | _, some true => some true
      | some false, some false => some false
      | _, _ => none
  | .xor a b =>
      match knownBit known (canonAlias aliases a), knownBit known (canonAlias aliases b) with
      | some x, some y => some (x ^^ y)
      | _, _ => none
  | _ => none

def sameSlot (storage : StorageId) (lane : LaneId) (e : StoreKey × ℕ) : Bool :=
  e.1.1 = storage && e.1.2.1 = lane

/-- What a write to `addr` leaves in the cache. -/
def retained (known : List (ℕ × Option Bool)) (storage : StorageId) (lane : LaneId)
    (addr : List ℕ) (cache : BiirStoreCache) : BiirStoreCache :=
  if maxConcurrentStores ≤ (cache.filter (sameSlot storage lane)).length then
    cache.filter fun e => !sameSlot storage lane e
  else cache.filter fun e =>
    !sameSlot storage lane e || addrsProvablyDifferent known addr e.1.2.2

/-- `BTreeMap::insert`. -/
def insertStore (key : StoreKey) (src : ℕ) (cache : BiirStoreCache) : BiirStoreCache :=
  (key, src) :: cache.filter fun e => e.1 ≠ key

/-- One statement of the sweep; its result is `rv`. -/
def forwardStmt (st : ForwardState) (rv : ℕ) (s : Stmt) : Stmt × ForwardState :=
  let (s, rewritten) := applyAliasesStmt st.aliasMap s
  let known := (rv, knownOf st.knownMap st.aliasMap s) :: st.knownMap
  let st := { st with knownMap := known, changed := st.changed || rewritten }
  match s with
  | .storageWrite storage lane src addr =>
      let addr := addr.map (canonAlias st.aliasMap)
      let cache := retained known storage lane addr st.cache
      (s, { st with
        cache := insertStore (storage, lane, addr) (canonAlias st.aliasMap src) cache })
  | .storageRead storage lane addr =>
      match st.cache.lookup (storage, lane, addr.map (canonAlias st.aliasMap)) with
      | some src => (s, { st with aliasMap := (rv, src) :: st.aliasMap, changed := true })
      | none => (s, st)
  | s => (s, st)

section
variable {P : Type}

def forwardStmtsFrom (st : ForwardState) (rv : ℕ) :
    List (Node Stmt P) → List (Node Stmt P) × ForwardState
  | [] => ([], st)
  | node :: rest =>
      let (kind, st) := forwardStmt st rv node.kind
      let (rest, st) := forwardStmtsFrom st (rv + 1) rest
      ({ node with kind := kind } :: rest, st)

/-- `store_forward_biir_block_with_cache`: the block, the outgoing cache and the flag. -/
def forwardBlockWithCache (block : BIrBlock P) (incoming : BiirStoreCache) :
    BIrBlock P × BiirStoreCache × Bool :=
  let (stmts, st) := forwardStmtsFrom ⟨incoming, [], [], false⟩ block.params block.stmts
  let (terminator, rewritten) := applyAliasesTerminator st.aliasMap block.terminator
  (⟨block.params, stmts, terminator⟩, st.cache, st.changed || rewritten)

/-- `store_forward_biir_blocks` on the program with this one block; `none` when an id
`params + i` that the sweep computes overflows. -/
def forwardSingle (block : BIrBlock P) : Option (BIrBlock P × Bool) :=
  if block.IdsFit then
    let (block, _, changed) := forwardBlockWithCache block []
    some (block, changed)
  else none

end

end VolarIR.Opt

/-!
## Store-to-load forwarding: what the cache knows

The cache is right about the storage writes of the block: a cached var holds the bit that
the last write to its cell stored. Whether the cell still holds that bit is another
matter, since an action store changes cells without the cache noticing. A run keeps its
results exactly when no read finds a cached entry whose cell an action store has changed.
-/
namespace VolarIR.Opt
open Boolar

variable {P : Type}

abbrev Written := Cell → Option Bool

def addrBits (vals : List Value) (addr : List ℕ) : List Bool :=
  addr.map fun v => (look vals v).bit

def StoreKey.cell (vals : List Value) (key : StoreKey) : Cell :=
  ((key.1, key.2.1), addrBits vals key.2.2)

def writtenStep (vals : List Value) (written : Written) : Stmt → Written
  | .storageWrite storage lane src addr =>
      Function.update written ((storage, lane), addrBits vals addr) (some (look vals src).bit)
  | _ => written

/-- If the statement is a read that finds its key in the cache, its cell holds what the block
last wrote there. -/
def FreshHit (st : ForwardState) (f : Frame) (written : Written) (s : Stmt) : Prop :=
  ∀ storage lane addr src, s = .storageRead storage lane addr →
    st.cache.lookup (storage, lane, addr.map (canonAlias st.aliasMap)) = some src →
    written ((storage, lane), addrBits f.vals addr) =
      some (f.st.storage.read ((storage, lane), addrBits f.vals addr))

/-- No read that finds its key in the cache meets a cell that has changed since the
block last wrote it. -/
def NoStaleHit (world : Externals) : ForwardState → Frame → Written → List Stmt → Prop
  | _, _, _, [] => True
  | st, f, written, s :: rest =>
      (∀ storage lane addr src, s = .storageRead storage lane addr →
        st.cache.lookup (storage, lane, addr.map (canonAlias st.aliasMap)) = some src →
        written ((storage, lane), addrBits f.vals addr) =
          some (f.st.storage.read ((storage, lane), addrBits f.vals addr))) ∧
      NoStaleHit world (forwardStmt st f.vals.length s).2 (stepStmt world f s)
        (writtenStep f.vals written s) rest

/-- Aliases are reads sent to earlier vars, and the cache holds canonical vars. -/
structure Forwarded (base : ℕ) (ks : List Stmt) (n : ℕ) (st : ForwardState) : Prop where
  oneHop : OneHop st.aliasMap n
  read : ∀ v w, st.aliasMap.lookup v = some w →
    ∃ storage lane addr, definedBy base ks v = some (.storageRead storage lane addr)
  src : ∀ e ∈ st.cache, e.2 < n ∧ st.aliasMap.lookup e.2 = none
  addr : ∀ e ∈ st.cache, ∀ v ∈ e.1.2.2, v < n

/-- What the sweep has learned holds of the vars evaluated so far. -/
structure Agrees (st : ForwardState) (vals : List Value) (written : Written) : Prop where
  aliased : ∀ v w, st.aliasMap.lookup v = some w → (look vals w).bit = (look vals v).bit
  known : ∀ v b, st.knownMap.lookup v = some (some b) → v < vals.length ∧ (look vals v).bit = b
  cached : ∀ e ∈ st.cache, written (e.1.cell vals) = some (look vals e.2).bit

def ProjectsNoRead (base : ℕ) (ks : List Stmt) (s : Stmt) : Prop :=
  ∀ v ∈ s.handles, ∀ storage lane addr,
    definedBy base ks v ≠ some (.storageRead storage lane addr)

section
variable {base n : ℕ} {ks : List Stmt} {st : ForwardState} {vals : List Value}
  {written : Written}

theorem Agrees.canon_bit (h : Agrees st vals written) (v : ℕ) :
    (look vals (canonAlias st.aliasMap v)).bit = (look vals v).bit :=
  canonAlias_rel (R := fun v w => (look vals w).bit = (look vals v).bit) (fun _ => rfl)
    (fun _ _ _ h₁ h₂ => h₂.trans h₁) h.aliased v

theorem Agrees.addrBits_canon (h : Agrees st vals written) (addr : List ℕ) :
    addrBits vals (addr.map (canonAlias st.aliasMap)) = addrBits vals addr := by
  rw [addrBits, List.map_map]
  exact List.map_congr_left fun v _ => h.canon_bit v

theorem Agrees.knownBit_eq (h : Agrees st vals written) {v : ℕ} {b : Bool}
    (hb : knownBit st.knownMap v = some b) : (look vals v).bit = b :=
  (h.known v b (Option.join_eq_some_iff.mp hb)).2

theorem addrBits_append {more : List Value} {addr : List ℕ} (h : ∀ v ∈ addr, v < vals.length) :
    addrBits (vals ++ more) addr = addrBits vals addr :=
  List.map_congr_left fun v hv => by rw [look_append_left (h v hv)]

theorem Agrees.knownOf_eq (h : Agrees st vals written) (world : Externals) (σ : EvalState)
    {s : Stmt} {b : Bool} (hb : knownOf st.knownMap st.aliasMap s = some b) :
    (evalStmt world σ (s.mapVars (look vals))).1.bit = b := by
  have hknown : ∀ {v c}, knownBit st.knownMap (canonAlias st.aliasMap v) = some c →
      (look vals v).bit = c := fun {v c} hc => (h.canon_bit v).symm.trans (h.knownBit_eq hc)
  cases s with
  | zero | one => exact Option.some.inj hb
  | not a =>
      obtain ⟨c, hc, rfl⟩ := Option.map_eq_some_iff.mp hb
      simp [BIrStmt.mapVars, evalStmt, hknown hc]
  | and x y | or x y | xor x y =>
      simp only [knownOf] at hb
      simp only [BIrStmt.mapVars, evalStmt]
      cases hx : knownBit st.knownMap (canonAlias st.aliasMap x) with
      | none =>
          cases hy : knownBit st.knownMap (canonAlias st.aliasMap y) with
          | none => simp [hx, hy] at hb
          | some d => cases d <;> simp_all [hknown hy]
      | some c =>
          cases hy : knownBit st.knownMap (canonAlias st.aliasMap y) with
          | none => cases c <;> simp_all [hknown hx]
          | some d => cases c <;> cases d <;> simp_all [hknown hx, hknown hy]
  | _ => cases hb

theorem addrBits_ne {known : List (ℕ × Option Bool)}
    (h : ∀ v b, knownBit known v = some b → (look vals v).bit = b) {a b : List ℕ}
    (hab : addrsProvablyDifferent known a b = true) : addrBits vals a ≠ addrBits vals b := by
  intro heq
  unfold addrsProvablyDifferent at hab
  split_ifs at hab with hlen
  · exact hlen (by simpa [addrBits] using congrArg List.length heq)
  · obtain ⟨⟨x, y⟩, hmem, hxy⟩ := List.any_eq_true.mp hab
    obtain ⟨i, hi⟩ := List.mem_iff_getElem?.mp hmem
    obtain ⟨hxi, hyi⟩ := List.getElem?_zip_eq_some.mp hi
    have hbit : (look vals x).bit = (look vals y).bit := by
      have := congrArg (fun l => l[i]?) heq
      simpa [addrBits, hxi, hyi] using this
    cases hx : knownBit known x with
    | none => simp [hx] at hxy
    | some c =>
        cases hy : knownBit known y with
        | none => cases c <;> simp [hx, hy] at hxy
        | some d =>
            rw [h x c hx, h y d hy] at hbit
            subst hbit
            cases c <;> simp [hx, hy] at hxy

/-- What the sweep does with one statement, after rewriting it to `t`. -/
theorem forwardStmt_cases (st : ForwardState) (rv : ℕ) (s : Stmt) {t : Stmt}
    (ht : t = s.mapVars (canonAlias st.aliasMap)) {known : List (ℕ × Option Bool)}
    (hknown : known = (rv, knownOf st.knownMap st.aliasMap t) :: st.knownMap) :
    (∃ storage lane src addr, t = .storageWrite storage lane src addr ∧
      forwardStmt st rv s = (t, ⟨insertStore (storage, lane, addr.map (canonAlias st.aliasMap))
        (canonAlias st.aliasMap src) (retained known storage lane
          (addr.map (canonAlias st.aliasMap)) st.cache),
        st.aliasMap, known, st.changed || decide (t ≠ s)⟩)) ∨
    (∃ storage lane addr src, t = .storageRead storage lane addr ∧
      st.cache.lookup (storage, lane, addr.map (canonAlias st.aliasMap)) = some src ∧
      forwardStmt st rv s = (t, ⟨st.cache, (rv, src) :: st.aliasMap, known, true⟩)) ∨
    (∀ vals written, writtenStep vals written s = written) ∧
      forwardStmt st rv s =
        (t, ⟨st.cache, st.aliasMap, known, st.changed || decide (t ≠ s)⟩) := by
  have heq : forwardStmt st rv s = _ := rfl
  unfold forwardStmt at heq ⊢
  rw [applyAliasesStmt_eq, ← ht]
  dsimp only
  cases s with
  | storageWrite storage lane src addr =>
      subst ht hknown
      exact .inl ⟨storage, lane, _, _, rfl, rfl⟩
  | storageRead storage lane addr =>
      subst ht hknown
      simp only [BIrStmt.mapVars]
      cases hsrc : st.cache.lookup (storage, lane,
          (addr.map (canonAlias st.aliasMap)).map (canonAlias st.aliasMap)) with
      | some src => exact .inr (.inl ⟨storage, lane, _, src, rfl, hsrc, rfl⟩)
      | none => exact .inr (.inr ⟨fun _ _ => rfl, rfl⟩)
  | _ =>
      subst ht hknown
      exact .inr (.inr ⟨fun _ _ => rfl, rfl⟩)

theorem mem_insertStore {key : StoreKey} {src : ℕ} {cache : BiirStoreCache} {e : StoreKey × ℕ}
    (h : e ∈ insertStore key src cache) : e = (key, src) ∨ e ∈ cache :=
  (List.mem_cons.mp h).imp_right List.mem_of_mem_filter

theorem mem_retained {known : List (ℕ × Option Bool)} {storage : StorageId} {lane : LaneId}
    {addr : List ℕ} {cache : BiirStoreCache} {e : StoreKey × ℕ}
    (h : e ∈ retained known storage lane addr cache) :
    e ∈ cache ∧ (sameSlot storage lane e = false ∨
      addrsProvablyDifferent known addr e.1.2.2 = true) := by
  unfold retained at h
  split_ifs at h
  · obtain ⟨hmem, hslot⟩ := List.mem_filter.mp h
    exact ⟨hmem, .inl (by simpa using hslot)⟩
  · obtain ⟨hmem, hslot⟩ := List.mem_filter.mp h
    exact ⟨hmem, by simpa using hslot⟩

theorem mem_of_lookup_eq_some {key : StoreKey} {src : ℕ} {cache : BiirStoreCache}
    (h : cache.lookup key = some src) : (key, src) ∈ cache := by
  induction cache with
  | nil => cases h
  | cons e rest ih =>
      obtain ⟨k, w⟩ := e
      rw [List.lookup_cons] at h
      split at h
      · next hk =>
          obtain rfl := eq_of_beq hk
          obtain rfl := Option.some.inj h
          exact List.mem_cons_self
      · exact List.mem_cons_of_mem _ (ih h)

theorem Forwarded.canon_lt (h : Forwarded base ks n st) {v : ℕ} (hv : v < n) :
    canonAlias st.aliasMap v < n := Nat.lt_of_le_of_lt (h.oneHop.canon_le v) hv

theorem Forwarded.step (h : Forwarded base ks n st) {s : Stmt}
    (hs : definedBy base ks n = some s) (hops : ∀ v ∈ s.operands, v < n) :
    Forwarded base ks (n + 1) (forwardStmt st n s).2 ∧
      (forwardStmt st n s).1 = s.mapVars (canonAlias st.aliasMap) ∧
      ∀ u < n, canonAlias (forwardStmt st n s).2.aliasMap u = canonAlias st.aliasMap u := by
  have hsrc : ∀ e ∈ st.cache, e.2 < n + 1 ∧ st.aliasMap.lookup e.2 = none := fun e he =>
    ⟨Nat.lt_succ_of_lt (h.src e he).1, (h.src e he).2⟩
  have haddr : ∀ e ∈ st.cache, ∀ v ∈ e.1.2.2, v < n + 1 := fun e he v hv =>
    Nat.lt_succ_of_lt (h.addr e he v hv)
  obtain ⟨storage, lane, src, addr, ht, hr⟩ | ⟨storage, lane, addr, src, ht, hhit, hr⟩ | ⟨-, hr⟩ :=
    forwardStmt_cases st n s rfl rfl
  · have hops' : ∀ v ∈ src :: addr, v < n := fun v hv => by
      have hmem : v ∈ (s.mapVars (canonAlias st.aliasMap)).operands := by rwa [ht]
      rw [BIrStmt.operands_mapVars] at hmem
      obtain ⟨u, hu, rfl⟩ := List.mem_map.mp hmem
      exact h.canon_lt (hops u hu)
    rw [hr]
    refine ⟨⟨h.oneHop.mono (Nat.le_succ n), h.read, fun e he => ?_, fun e he v hv => ?_⟩, rfl,
      fun _ _ => rfl⟩
    · rcases mem_insertStore he with rfl | he
      · exact ⟨Nat.lt_succ_of_lt (h.canon_lt (hops' src List.mem_cons_self)),
          h.oneHop.lookup_canon src⟩
      · exact hsrc e (mem_retained he).1
    · rcases mem_insertStore he with rfl | he
      · obtain ⟨u, hu, rfl⟩ := List.mem_map.mp hv
        exact Nat.lt_succ_of_lt (h.canon_lt (hops' u (List.mem_cons_of_mem _ hu)))
      · exact haddr e (mem_retained he).1 v hv
  · obtain ⟨hlt, hnone⟩ := h.src _ (mem_of_lookup_eq_some hhit)
    have hread : ∃ addr', s = .storageRead storage lane addr' := by
      cases s <;> cases ht
      exact ⟨_, rfl⟩
    obtain ⟨addr', rfl⟩ := hread
    rw [hr]
    refine ⟨⟨h.oneHop.cons hnone hlt, fun v w hw => ?_, fun e he => ?_, haddr⟩, rfl,
      fun u hu => (h.oneHop.canon_cons hnone hlt).trans (if_neg (Nat.ne_of_lt hu))⟩
    · rcases lookup_cons_cases hw with ⟨rfl, -⟩ | ⟨-, hw⟩
      · exact ⟨storage, lane, addr', hs⟩
      · exact h.read v w hw
    · obtain ⟨hen, henone⟩ := h.src e he
      exact ⟨Nat.lt_succ_of_lt hen, (lookup_cons_of_ne (Nat.ne_of_lt hen) _ _).trans henone⟩
  · rw [hr]
    exact ⟨⟨h.oneHop.mono (Nat.le_succ n), h.read, hsrc, haddr⟩, rfl, fun _ _ => rfl⟩

end

section
variable {base : ℕ} {ks : List Stmt} {st : ForwardState} {f : Frame} {written : Written}

/-- With true aliases the rewritten statement evaluates as the source's. -/
theorem Agrees.step_eq (h : Agrees st f.vals written) (hf : Forwarded base ks f.vals.length st)
    (world : Externals) {s : Stmt} (hp : ProjectsNoRead base ks s) :
    stepStmt world f (s.mapVars (canonAlias st.aliasMap)) = stepStmt world f s := by
  have heval : evalStmt world f.st ((s.mapVars (canonAlias st.aliasMap)).mapVars (look f.vals)) =
      evalStmt world f.st (s.mapVars (look f.vals)) := by
    rw [BIrStmt.mapVars_mapVars]
    refine evalStmt_congr_values (fun v _ => h.canon_bit v) fun v hv => ?_
    have hnone : st.aliasMap.lookup v = none := by
      cases hw : st.aliasMap.lookup v with
      | none => rfl
      | some w =>
          obtain ⟨storage, lane, addr, hread⟩ := hf.read v w hw
          exact absurd hread (hp v hv storage lane addr)
    rw [Function.comp_apply, canonAlias_of_not_mem hnone]
  simp only [stepStmt, heval]

/-- What is known before a statement is known after it, with the statement's own bit. -/
theorem Agrees.extend (h : Agrees st f.vals written) (hf : Forwarded base ks f.vals.length st)
    (world : Externals) {s t : Stmt} (ht : t = s.mapVars (canonAlias st.aliasMap))
    (hp : ProjectsNoRead base ks s) (c : Bool) :
    Agrees ⟨st.cache, st.aliasMap,
      (f.vals.length, knownOf st.knownMap st.aliasMap t) :: st.knownMap, c⟩
      (stepStmt world f s).vals written where
  aliased v w hw := by
    obtain ⟨hwv, hv, -⟩ := hf.oneHop v w hw
    rw [stepStmt_look hv, stepStmt_look (Nat.lt_trans hwv hv)]
    exact h.aliased v w hw
  known v b hb := by
    rcases lookup_cons_cases hb with ⟨rfl, hbit⟩ | ⟨-, hb⟩
    · rw [← h.step_eq hf world hp, ← ht]
      refine ⟨by simp, ?_⟩
      simp only [stepStmt, look_append_length]
      exact h.knownOf_eq world f.st hbit.symm
    · obtain ⟨hv, hbit⟩ := h.known v b hb
      rw [stepStmt_look hv, stepStmt_length]
      exact ⟨Nat.lt_succ_of_lt hv, hbit⟩
  cached e he := by
    have haddr : addrBits (stepStmt world f s).vals e.1.2.2 = addrBits f.vals e.1.2.2 :=
      addrBits_append (hf.addr e he)
    rw [stepStmt_look (hf.src e he).1, StoreKey.cell, haddr]
    exact h.cached e he

/-- One statement keeps what is known, if a read that hits the cache is not stale. -/
theorem Agrees.step (h : Agrees st f.vals written) (hf : Forwarded base ks f.vals.length st)
    (world : Externals) {s : Stmt} (hops : ∀ v ∈ s.operands, v < f.vals.length)
    (hp : ProjectsNoRead base ks s) (hfresh : FreshHit st f written s) :
    Agrees (forwardStmt st f.vals.length s).2 (stepStmt world f s).vals
      (writtenStep f.vals written s) := by
  have hext := fun {t} ht => h.extend hf world (s := s) (t := t) ht hp
  obtain ⟨storage, lane, src, addr, ht, hr⟩ | ⟨storage, lane, addr, src, ht, hhit, hr⟩ |
    ⟨hwritten, hr⟩ := forwardStmt_cases st f.vals.length s rfl rfl
  · -- a write: the new entry is true, and retained entries name other cells
    obtain ⟨src', addr', rfl⟩ : ∃ src' addr', s = .storageWrite storage lane src' addr' := by
      cases s <;> cases ht
      exact ⟨_, _, rfl⟩
    obtain ⟨-, -, rfl, rfl⟩ := BIrStmt.storageWrite.inj ht
    have hagree := hext rfl (st.changed || decide
      ((BIrStmt.storageWrite storage lane src' addr').mapVars (canonAlias st.aliasMap) ≠
        .storageWrite storage lane src' addr'))
    have hidem : (addr'.map (canonAlias st.aliasMap)).map (canonAlias st.aliasMap) =
        addr'.map (canonAlias st.aliasMap) := by
      simp [hf.oneHop.idem]
    have hlt : ∀ v ∈ addr', v < f.vals.length := fun v hv => hops v (List.mem_cons_of_mem _ hv)
    have hbits : addrBits (stepStmt world f (.storageWrite storage lane src' addr')).vals
        (addr'.map (canonAlias st.aliasMap)) = addrBits f.vals addr' := by
      refine (addrBits_append fun v hv => ?_).trans (h.addrBits_canon addr')
      obtain ⟨u, hu, rfl⟩ := List.mem_map.mp hv
      exact hf.canon_lt (hlt u hu)
    have hsrc : (look (stepStmt world f (.storageWrite storage lane src' addr')).vals
        (canonAlias st.aliasMap src')).bit = (look f.vals src').bit := by
      rw [stepStmt_look (hf.canon_lt (hops src' List.mem_cons_self))]
      exact h.canon_bit src'
    rw [hr, hidem, hf.oneHop.idem]
    refine ⟨hagree.aliased, hagree.known, fun e he => ?_⟩
    rcases mem_insertStore he with rfl | he
    · simp only [StoreKey.cell, hbits, writtenStep, Function.update_self, hsrc]
    · obtain ⟨hmem, hother⟩ := mem_retained he
      have hne : e.1.cell (stepStmt world f (.storageWrite storage lane src' addr')).vals ≠
          ((storage, lane), addrBits f.vals addr') := fun heq => by
        rcases hother with hslot | hdiff
        · have hkey := congrArg Prod.fst heq
          simp only [StoreKey.cell, Prod.mk.injEq] at hkey
          simp [sameSlot, hkey.1, hkey.2] at hslot
        · have haddr := congrArg Prod.snd heq
          refine addrBits_ne (fun v b hb => ?_) hdiff (hbits.trans haddr.symm)
          exact (hagree.known v b (Option.join_eq_some_iff.mp hb)).2
      rw [writtenStep, Function.update_of_ne hne]
      exact hagree.cached e hmem
  · -- a hit: the cell still holds the cached bit
    obtain ⟨addr', rfl⟩ : ∃ addr', s = .storageRead storage lane addr' := by
      cases s <;> cases ht
      exact ⟨_, rfl⟩
    obtain ⟨-, -, rfl⟩ := BIrStmt.storageRead.inj ht
    have hidem : (addr'.map (canonAlias st.aliasMap)).map (canonAlias st.aliasMap) =
        addr'.map (canonAlias st.aliasMap) := by
      simp [hf.oneHop.idem]
    rw [hidem] at hhit
    have hmem := mem_of_lookup_eq_some hhit
    have hcached := h.cached _ hmem
    have hread := hfresh storage lane addr' src rfl hhit
    rw [StoreKey.cell, h.addrBits_canon, hread, Option.some.injEq] at hcached
    have hagree := hext rfl true
    rw [hr]
    refine ⟨fun v w hw => ?_, hagree.known, hagree.cached⟩
    rcases lookup_cons_cases hw with ⟨rfl, rfl⟩ | ⟨-, hw⟩
    · rw [stepStmt_look (hf.src _ hmem).1, ← hcached]
      simp [stepStmt, BIrStmt.mapVars, evalStmt, addrBits, Value.bits, Function.comp_def]
    · exact hagree.aliased v w hw
  · rw [hr, hwritten]
    exact hext rfl _

end

end VolarIR.Opt
