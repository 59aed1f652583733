import OnnxFusion.Edits
import OnnxFusion.Netlist.Surgery
import OnnxFusion.Analysis.Compare
/-!
# The tool jobs

Each job works on fixed model and data paths of the deployment it was written for:

* `cutGraph`: keeps only the image input of the quantized model and makes tensor `654` its
  only output.
* `insertIdentity`: splices an identity node after tensor `1048` of the layer-norm plugin
  subgraph.
* `renameInitializers`: gives every initializer use of the named model its own copy.
* `exposeDequantized`: exposes, in the quantized model, the outputs of the nodes fed by a
  `DequantizeLinear` node, then the outputs of the nodes of the same names in the float model.
* `freezeRecordedInputs`: freezes every recorded input of the float model except the image
  and the camera matrices into constants, and drops the memory and decoder outputs.
* `compareBlacklist`: compares the blacklisted quantized model with the float model on the
  calibration batch and prints the chosen names; its table and output directories go next to
  the job, in the directory given.
-/

set_option autoImplicit false

namespace OnnxFusion

namespace Jobs

/-- The directory of the quantization examples. -/
def examples : String := "/home/uto/workspace/my/Model-Optimizer-0.40.0/examples/bevod_hdt/"

/-- Changes the stored models by a step that may fail. -/
def onStore (f : FileTable → Outcome FileTable) : HostM Unit := do
  let s ← Host.lift (f (← get).store)
  modify fun h => { h with store := s }

/-- Loads a netlist, edits it and saves the result. -/
def editNetlist (src dst : String) (edit : Netlist → Outcome Netlist) : HostM Unit :=
  onStore fun files => do
    let g ← Edits.netlistAt files src
    pure (files.put dst (.netlist (← edit g)))

/-- Keeps the image input and exposes tensor `654` of the quantized model. -/
def cutGraph : HostM Unit :=
  editNetlist (examples ++ "normal_quant_80.onnx") (examples ++ "normal_quant_80_cut.onnx") fun g => do
    (← g.keepOnlyInput "img").exposeOnly "654"

/-- Splices an identity node after tensor `1048`. -/
def insertIdentity : HostM Unit :=
  editNetlist "/home/uto/workspace/demos/bevod/modelopt_normal_quant/subgraph_ln_plugin.onnx"
    "/home/uto/workspace/demos/bevod/modelopt_normal_quant/subgraph_ln_plugin_identity.onnx"
    fun g => g.spliceIdentity "1048"

/-- Gives every initializer use its own copy. -/
def renameInitializers : HostM Unit :=
  let dir := "/home/uto/workspace/taijia_workspace/bev_od_orin_work/OneKeyPAT/workdir/aiv_mw_1224/model/"
  onStore fun files =>
    Edits.privateInitializers files (dir ++ "online_opt_named.onnx") (dir ++ "online_opt_named_initializer.onnx")

/-- Exposes the dequantized outputs of the quantized model, then the same nodes of the float
model. -/
def exposeDequantized : HostM Unit := do
  let files := (← get).store
  let (files, names) ← Host.lift (Edits.exposeOutputs files (examples ++ "normal_quant_80.onnx")
    (examples ++ "normal_quant_80_dump.onnx") (.list [.str "DequantizeLinear"]) .none)
  modify fun h => { h with store := files }
  let (files, _) ← Host.lift (Edits.exposeOutputs files (examples ++ "online.onnx")
    (examples ++ "online_dump.onnx") .none (.list (names.map Value.str)))
  modify fun h => { h with store := files }

/-- The named arrays of one archive file. -/
def archiveAt (path : String) : HostM (List (String × Tensor)) := do
  match ← Host.lift ((← get).disk.read path) with
  | .archive members => pure members
  | .array _ => throw (.noAttribute "numpy.ndarray" "items")
  | .text s => throw (if s.isEmpty then .noDataLeft else .pickledData)

/-- Freezes the recorded inputs of the float model, except the image and camera matrices. -/
def freezeRecordedInputs : HostM Unit := do
  let data ← archiveAt "/home/uto/workspace/demos/bevod/res50_8b_online_inputs_0_0208.npz"
  let kept := ["img", "intrinsic", "img2lidar"]
  let constants := Inference.assignAll [] (data.filter fun (k, _) => !kept.contains k)
  let unused : Value := .list (["mem_embedding", "mem_timestamp", "mem_egopose", "mem_ref_point",
    "mem_velo", "outs_dec"].map Value.str)
  onStore fun files =>
    Edits.freezeInputs files "/home/uto/workspace/my/onnx-opt-tool/onnx/online.onnx"
      "/home/uto/workspace/my/onnx-opt-tool/onnx/online_const_ogs.onnx" constants unused

/-- A list of names as a literal. -/
def namesLiteral (names : List String) : String :=
  "[" ++ ", ".intercalate (names.map Text.literal) ++ "]"

/-- Compares the blacklisted quantized model with the float model; `here` is the directory
the job's table and output directories go to. -/
def compareBlacklist (here : String) : HostM Unit := do
  let chosen ← analyze
    { floatModel := examples ++ "online_dump.onnx", quantModel := examples ++ "trial_blacklist_quant.onnx",
      dataDir := examples ++ "batch1", floatDir := joinPath here "float_operator_outputs",
      quantDir := joinPath here "quant_operator_outputs_black", dump := false,
      csvPath := joinPath here "result_black.csv", topkPath := "", topk := 50, display := true,
      inserted := .list [] }
  Host.print ("---- " ++ namesLiteral chosen)

end Jobs

end OnnxFusion
