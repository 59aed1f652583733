import OnnxFusion.Proofs.Order.Network
import OnnxFusion.Analysis.Compare
/-!
# The outputs with the largest errors

After running both models, `analyze` hands their outputs to `Compare.report`, which checks
that the two have the same names, builds a comparison row per output (`Compare.rowsOf`),
writes and shows the rows (`Compare.saveRows`), then keeps the chosen rows with a numeric
error, ranked by decreasing error, and returns the names of the first `k`
(`Compare.saveTop`, `Compare.topRows`).

`rankByError` sorts with the network of `Order.argsortByNetwork`, whose order of equal keys
is its own; so what is proved of the ranking is what a sort by error promises: the rows are
the same, each once, and no row stands before one with a larger error
(`rankByError_ranked`). The first `k` of such a ranking have the largest errors
(`LargestErrors`).

`report_largestErrors` puts it together for every pair of outputs with the same names, every
list of chosen names and every `k ≥ 0`, on a host where the tables can be written
(`TablesWritable`): the names returned are those of `min k m` of the `m` chosen rows with a
numeric error, in order of non-increasing error, and every such row left out has an error
at most every one returned. Outputs whose names differ stop the report
(`report_outputsDiffer`).
-/

set_option autoImplicit false

namespace OnnxFusion

/-! ### Steps on the host -/

namespace Host

variable {α β : Type} {h h₁ : Host}

theorem exec_bind_ok {x : HostM α} {a : α} (hx : exec h x = (.ok a, h₁)) (f : α → HostM β) :
    exec h (x >>= f) = exec h₁ (f a) := by
  unfold exec at hx ⊢
  simp only [ExceptT.run_bind, StateT.run_bind, hx]
  rfl

theorem exec_bind_error {x : HostM α} {e : Fault} (hx : exec h x = (.error e, h₁))
    (f : α → HostM β) : exec h (x >>= f) = (.error e, h₁) := by
  unfold exec at hx ⊢
  simp only [ExceptT.run_bind, StateT.run_bind, hx]
  rfl

theorem exec_pure (a : α) : exec h (pure a : HostM α) = (.ok a, h) := rfl

theorem exec_get : exec h (get : HostM Host) = (.ok h, h) := rfl

theorem exec_lift_ok (a : α) : exec h (lift (.ok a)) = (.ok a, h) := rfl

theorem exec_print (s : String) :
    exec h (print s) = (.ok (), { h with printed := h.printed ++ s ++ "\n" }) := rfl

end Host

namespace Compare

/-! ### Writing the tables -/

/-- A table can be written at `path` on the disk `w`: its directory exists and a file can be
written there, whatever its text. -/
def TableWritable (w : Workspace) (path : String) : Prop :=
  w.isDirPath (PathParts.written path).parent = true ∧ ∀ d, ∃ w', w.write path d = .ok w'

/-- The tables of a request can be written one after the other: the comparison table when a
path is given for it, then the top-k table. -/
def TablesWritable (r : AnalyzeRequest) (w : Workspace) : Prop :=
  if r.csvPath.isEmpty then TableWritable w r.topkPath
  else TableWritable w r.csvPath ∧ ∀ d w', w.write r.csvPath d = .ok w' → TableWritable w' r.topkPath

theorem exec_writeTable {path text : String} {w₀ w : Workspace}
    (hp : w₀.isDirPath (PathParts.written path).parent = true)
    (hw : w₀.write path (.text text) = .ok w) {h : Host} (hd : h.disk = w₀) :
    Host.exec h (writeTable path text) = (.ok (), { h with disk := w }) := by
  subst hd
  unfold writeTable Host.onDisk
  rw [Host.exec_bind_ok Host.exec_get]
  dsimp only
  rw [if_pos hp, Host.exec_bind_ok Host.exec_get,
    Host.exec_bind_ok (by rw [hw]; exact Host.exec_lift_ok w)]
  rfl

/-- Showing the comparison table changes nothing but the text printed. -/
theorem exec_show (r : AnalyzeRequest) (h : Host) (rows : List Comparison) :
    ∃ h', Host.exec h (if r.display = true then Host.print (Table.render headers (rows.map shownRow))
      else pure ()) = (.ok (), h') ∧ h'.disk = h.disk := by
  split
  · exact ⟨_, Host.exec_print _, rfl⟩
  · exact ⟨_, Host.exec_pure (), rfl⟩

/-- Saving the rows succeeds where the tables can be written, and leaves a disk that can
still take the top-k table. -/
theorem exec_saveRows {r : AnalyzeRequest} {h : Host} (hw : TablesWritable r h.disk)
    (fmt : Binary.Format) (rows : List Comparison) :
    ∃ h', Host.exec h (saveRows r fmt rows) = (.ok (), h') ∧ TableWritable h'.disk r.topkPath := by
  unfold saveRows
  dsimp only
  by_cases hE : r.csvPath.isEmpty = true
  · rw [TablesWritable, if_pos hE] at hw
    obtain ⟨h', hx, hd⟩ := exec_show r h rows
    rw [if_pos hE]
    exact ⟨h', hx, hd ▸ hw⟩
  · -- the comparison table is written first, and the top-k table can be written after it
    rw [TablesWritable, if_neg hE] at hw
    obtain ⟨w₁, hw₁⟩ := hw.1.2 (.text (Csv.table headers (rows.map (csvFields fmt))))
    rw [if_neg hE, Host.exec_bind_ok (exec_writeTable hw.1.1 hw₁ rfl),
      Host.exec_bind_ok (Host.exec_print _)]
    obtain ⟨h', hx, hd⟩ := exec_show r _ rows
    exact ⟨h', hx, hd ▸ hw.2 _ _ hw₁⟩

/-- Saving the top rows returns the names of `topRows`, for the chosen names of the
request. -/
theorem exec_saveTop {r : AnalyzeRequest} {N : List String} {h : Host}
    (hN : chosenNames r.inserted = .ok N) (hw : TableWritable h.disk r.topkPath)
    (fmt : Binary.Format) (rows : List Comparison) :
    ∃ h', Host.exec h (saveTop r fmt rows) = (.ok ((topRows r.topk N rows).map (·.name)), h') := by
  unfold saveTop
  rw [Host.exec_bind_ok (by rw [hN]; exact Host.exec_lift_ok N)]
  dsimp only
  split
  · next hempty =>
    rw [Host.exec_bind_ok (Host.exec_print _), List.isEmpty_iff.1 hempty]
    exact ⟨_, Host.exec_pure _⟩
  · -- the top rows are shown, written and named
    obtain ⟨w, hw'⟩ := hw.2 (.text (Csv.table (headers ++ ["mse_numeric"])
      ((topRows r.topk N rows).map fun c => csvFields fmt c ++ [floatField Binary.binary64 c.mse])))
    rw [Host.exec_bind_ok (Host.exec_print _), Host.exec_bind_ok (Host.exec_print _),
      Host.exec_bind_ok (exec_writeTable hw.1 hw' ?_), Host.exec_bind_ok (Host.exec_print _)]
    · exact ⟨_, Host.exec_pure _⟩
    · rfl

/-! ### Ranking by error -/

theorem filterMap_getElem?_range {α : Type} (l : List α) :
    (List.range l.length).filterMap (fun i => l[i]?) = l := by
  induction l with
  | nil => rfl
  | cons x l ih =>
    rw [List.length_cons, List.range_succ_eq_map, List.filterMap_cons, List.filterMap_map]
    simp [ih]

/-- Rows with numeric errors, ranked by error, are the same rows, each once, with no row
before one of a larger error. -/
theorem rankByError_ranked {rows : List Comparison} (hn : ∀ c ∈ rows, c.mse.isNaN = false) :
    (rankByError rows).Perm rows ∧ (rankByError rows).Pairwise fun a b => b.mse ≤ a.mse := by
  unfold rankByError
  dsimp only
  have hkeys : ∀ x ∈ rows.reverse.map (·.mse), x.isNaN = false := by
    intro x hx
    obtain ⟨c, hc, rfl⟩ := List.mem_map.1 hx
    exact hn c (List.mem_reverse.1 hc)
  obtain ⟨hp, hs⟩ := Order.argsortByNetwork_sorted hkeys
  rw [List.length_map] at hp
  constructor
  · -- the positions are those of the rows, so the rows they pick are all the rows
    have hrev := hp.filterMap (fun i => rows.reverse[i]?)
    rw [filterMap_getElem?_range] at hrev
    exact (List.reverse_perm _).trans (hrev.trans (List.reverse_perm rows))
  · -- the row at position `i` has the key at position `i`
    rw [List.pairwise_reverse]
    refine hs.filterMap _ fun a a' hle b hb b' hb' => ?_
    have hkey : ∀ {i : Nat} {c : Comparison}, rows.reverse[i]? = some c →
        (rows.reverse.map (·.mse)).getD i 0 = c.mse := fun hc => by
      rw [List.getD_eq_getElem?_getD, List.getElem?_map, hc]
      rfl
    rw [← hkey (Option.mem_def.1 hb), ← hkey (Option.mem_def.1 hb')]
    exact hle

theorem headOf_natCast {α : Type} (k : Nat) (xs : List α) : headOf (k : Int) xs = xs.take k := by
  simp [headOf]

/-- `top` holds `k` of the rows, or all of them when there are fewer, in order of
non-increasing error, and every row left out has an error at most each one of `top`. -/
def LargestErrors (k : Nat) (rows top : List Comparison) : Prop :=
  ∃ rest, (top ++ rest).Perm rows ∧ top.length = min k rows.length ∧
    top.Pairwise (fun a b => b.mse ≤ a.mse) ∧ ∀ c ∈ rest, ∀ t ∈ top, c.mse ≤ t.mse

/-- The first `k` of a ranking by error have the largest errors. -/
theorem largestErrors_take {k : Nat} {rows ranked : List Comparison} (hp : ranked.Perm rows)
    (hs : ranked.Pairwise fun a b => b.mse ≤ a.mse) : LargestErrors k rows (ranked.take k) := by
  have hsplit : (ranked.take k ++ ranked.drop k).Pairwise fun a b => b.mse ≤ a.mse := by
    rwa [List.take_append_drop]
  refine ⟨ranked.drop k, by rwa [List.take_append_drop], by rw [List.length_take, hp.length_eq],
    hs.sublist (List.take_sublist _ _), fun c hc t ht => ?_⟩
  exact (List.pairwise_append.1 hsplit).2.2 t ht c hc

/-- For `k ≥ 0`, the top rows are the chosen rows with a numeric error that have the largest
errors. -/
theorem topRows_largestErrors (k : Nat) (chosen : List String) (rows : List Comparison) :
    LargestErrors k (rows.filter fun c => chosen.contains c.name && !c.mse.isNaN)
      (topRows k chosen rows) := by
  unfold topRows
  rw [headOf_natCast]
  obtain ⟨hp, hs⟩ := @rankByError_ranked (rows.filter fun c =>
    chosen.contains c.name && !c.mse.isNaN) fun c hc => by
    have hsel := (List.mem_filter.1 hc).2
    simp only [Bool.and_eq_true, Bool.not_eq_true'] at hsel
    exact hsel.2
  exact largestErrors_take hp hs

/-- The two models' outputs have the same names. -/
def SameNames (quant float : List (String × Tensor)) : Prop :=
  ∀ x, x ∈ quant.map (·.1) ↔ x ∈ float.map (·.1)

theorem sameNames_iff (quant float : List (String × Tensor)) :
    SameNames quant float ↔ ((quant.map (·.1)).all (float.map (·.1)).contains &&
      (float.map (·.1)).all (quant.map (·.1)).contains) = true := by
  simp only [SameNames, Bool.and_eq_true, List.all_eq_true, List.contains_iff_mem]
  exact ⟨fun h => ⟨fun x hx => (h x).1 hx, fun x hx => (h x).2 hx⟩,
    fun h x => ⟨h.1 x, h.2 x⟩⟩

theorem exec_report {r : AnalyzeRequest} {quant float : List (String × Tensor)} {N : List String}
    {h : Host} (hsame : SameNames quant float) (hN : chosenNames r.inserted = .ok N)
    (hw : TablesWritable r h.disk) :
    ∃ h', Host.exec h (report r quant float) =
      (.ok ((topRows r.topk N (rowsOf quant float)).map (·.name)), h') := by
  unfold report
  dsimp only
  rw [if_pos ((sameNames_iff quant float).1 hsame)]
  obtain ⟨h₁, hx, hw₁⟩ := exec_saveRows hw (cosineFormat (rowsOf quant float)) (rowsOf quant float)
  rw [Host.exec_bind_ok hx]
  exact exec_saveTop hN hw₁ _ _

/-- Outputs whose names differ stop the report before anything is written or shown. -/
theorem report_outputsDiffer {r : AnalyzeRequest} {quant float : List (String × Tensor)}
    (hdiff : ¬ SameNames quant float) (h : Host) :
    Host.exec h (report r quant float) = (.error .outputsDiffer, h) := by
  unfold report
  dsimp only
  rw [if_neg (fun hc => hdiff ((sameNames_iff quant float).2 hc))]
  exact Host.exec_bind_error (x := throw Fault.outputsDiffer) rfl _

/-- For outputs with the same names, chosen names `N` and `k ≥ 0`, on a host where the tables
can be written, the report returns the names of the chosen rows with a numeric error that
have the `k` largest errors, in order of non-increasing error. -/
theorem report_largestErrors {r : AnalyzeRequest} {quant float : List (String × Tensor)}
    {N : List String} {k : Nat} {h : Host} (hsame : SameNames quant float)
    (hN : r.inserted = .list (N.map .str)) (hk : r.topk = k) (hw : TablesWritable r h.disk) :
    ∃ top h', Host.exec h (report r quant float) = (.ok (top.map (·.name)), h') ∧
      LargestErrors k ((rowsOf quant float).filter fun c => decide (c.name ∈ N) && !c.mse.isNaN)
        top := by
  have hchosen : chosenNames r.inserted = .ok N := by
    rw [hN]
    simp [chosenNames, List.filterMap_map]
  obtain ⟨h', hx⟩ := exec_report hsame hchosen hw
  rw [hk] at hx
  refine ⟨_, h', hx, ?_⟩
  have htop := topRows_largestErrors k N (rowsOf quant float)
  simp only [List.contains_eq_mem] at htop
  exact htop

/-- A one-element output of the given value. -/
def scalarOutput (x : Float) : Tensor := ⟨.float32, [1], [.real x]⟩

/-- The quantized model's outputs `a` and `b`. -/
def quantPair : List (String × Tensor) := [("a", scalarOutput 1), ("b", scalarOutput 2)]

/-- The float model's outputs, the same names in the other order. -/
def floatPair : List (String × Tensor) := [("b", scalarOutput 2.5), ("a", scalarOutput 0)]

/-- Both outputs chosen, the top one kept, no comparison table, the top-k table written to
`top` in the working directory. -/
def pairRequest : AnalyzeRequest :=
  { floatModel := "float.onnx", quantModel := "quant.onnx", dataDir := "data", floatDir := "f",
    quantDir := "q", dump := false, csvPath := "", topkPath := "top", topk := 1, display := true,
    inserted := .list [.str "a", .str "b"] }

/-- The empty working directory can take a table named `top`. -/
theorem tableWritable_top : TableWritable (default : Host).disk "top" := by
  have hsplit : "top".splitOn "/" = ["top"] := by
    unfold String.splitOn
    rw [if_neg (by decide +kernel), String.splitOnAux, if_neg (by decide +kernel),
      if_neg (by decide +kernel), String.splitOnAux, if_neg (by decide +kernel),
      if_neg (by decide +kernel), String.splitOnAux, if_neg (by decide +kernel),
      if_neg (by decide +kernel), String.splitOnAux, if_pos (by decide +kernel)]
    decide +kernel
  have hs : "top".startsWith "/" = false := by decide +kernel
  have he : "top".endsWith "/" = false := by decide +kernel
  have hd : (default : Host).disk.dirs = [] := rfl
  refine ⟨?_, fun d => ?_⟩
  · simp [Workspace.isDirPath, PathParts.written, PathParts.parent, Workspace.lookupParts,
      Workspace.walk, Workspace.isDir, hsplit, hs]
  · simp [Workspace.write, Workspace.lookup, Workspace.walk, Workspace.isDir, Workspace.isFile,
      Workspace.file?, hsplit, hs, he, hd]

theorem pairOutputs_largestErrors :
    SameNames quantPair floatPair ∧ pairRequest.inserted = .list (["a", "b"].map .str) ∧
      pairRequest.topk = (1 : Nat) ∧ TablesWritable pairRequest (default : Host).disk ∧
      ∃ top h', Host.exec default (report pairRequest quantPair floatPair) =
          (.ok (top.map (·.name)), h') ∧
        LargestErrors 1 ((rowsOf quantPair floatPair).filter fun c =>
          decide (c.name ∈ ["a", "b"]) && !c.mse.isNaN) top := by
  have hsame : SameNames quantPair floatPair := by
    intro x
    simp only [quantPair, floatPair, List.map_cons, List.map_nil, List.mem_cons, List.not_mem_nil,
      or_false]
    exact or_comm
  have hw : TablesWritable pairRequest (default : Host).disk := by
    rw [TablesWritable, if_pos (by decide +kernel)]
    exact tableWritable_top
  exact ⟨hsame, rfl, rfl, hw, report_largestErrors hsame rfl rfl hw⟩

end Compare

end OnnxFusion
