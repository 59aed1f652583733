import OnnxFusion.Package.Version
/-!
# Package metadata

The package is published as `onnx_opt`. Its long description is the package's read-me text,
or empty when there is none; its version is the one declared in the package's initialization
text (see `Version.declared`). The read-me and initialization texts the package ships with
are given here.
-/

set_option autoImplicit false

namespace OnnxFusion

namespace Package

/-- The distribution name. -/
def name : String := "onnx_opt"

/-- The one-line description. -/
def description : String := "ONNX optimization utilities and tools"

/-- The author. -/
def author : String := "lepaulski"

/-- The author's address. -/
def authorEmail : String := "zzqiuzz@gmail.com"

/-- The license. -/
def license : String := "Apache-2.0"

/-- The trove classifiers. -/
def classifiers : List String :=
  ["Programming Language :: Python :: 3", "Programming Language :: Python :: 3.8",
    "Programming Language :: Python :: 3.9", "Programming Language :: Python :: 3.10",
    "License :: OSI Approved :: Apache Software License", "Operating System :: OS Independent"]

/-- The read-me text the package ships with. -/
def shippedReadme : String :=
    "# onnx-opt-tool\n" ++
    "\n" ++
    "A small utility for optimizing ONNX graphs. It performs common subgraph fusions and operator rewrites to improve inference performance or integrate with custom runtimes.\n" ++
    "\n" ++
    "## Features\n" ++
    "- Fuse LayerNorm subgraphs composed of multiple small operators into `NvLayerNormPlugin`\n" ++
    "- Fuse attention/FFN related subgraphs into `CustomFFAttn`\n" ++
    "- Rewrite `log(A/B)` as `log(A) - log(B)`\n" ++
    "- Other optimizations for common graph patterns\n" ++
    "\n" ++
    "## Installation\n" ++
    "1. Clone the repository:\n" ++
    "```bash\n" ++
    "git clone <gitlab-url>\n" ++
    "cd onnx-opt-tool\n" ++
    "```\n" ++
    "\n" ++
    "2. Build a wheel:\n" ++
    "```bash\n" ++
    "python setup.py bdist_wheel\n" ++
    "```\n" ++
    "\n" ++
    "3. Install the generated wheel (example):\n" ++
    "```bash\n" ++
    "pip install dist/onnx_opt*.whl\n" ++
    "```\n" ++
    "\n" ++
    "## Usage\n" ++
    "Run the optimizer from the command line to optimize an ONNX model:\n" ++
    "```bash\n" ++
    "python -m opt input_model.onnx output_model.onnx\n" ++
    "```\n" ++
    "\n" ++
    "Example:\n" ++
    "```bash\n" ++
    "python -m opt ./models/resnet.onnx ./models/resnet_opt.onnx\n" ++
    "```\n" ++
    "\n" ++
    "You can seemlessly call the api like:\n" ++
    "```\n" ++
    "from opt import ONNXOptimizer\n" ++
    "optimizer = ONNXOptimizer()\n" ++
    "optimizer.load_model(input_onnx_path)\n" ++
    "optimizer.optimize()\n" ++
    "optimizer.save_model(output_onnx_path)\n" ++
    "```\n" ++
    "\n" ++
    "## Notes\n" ++
    "- The optimizer attempts to preserve numerical semantics, but you should run regression tests for critical scenarios.\n" ++
    "- To add or adjust fusion rules, inspect the implementation files in the repository and submit a PR.\n" ++
    "\n" ++
    "## License & Contributing\n" ++
    "Issues and pull requests are welcome. Please follow the project's coding style and test conventions.\n"

/-- The initialization text the package ships with. -/
def shippedInit : String :=
  "from .onnx_optimizer import ONNXOptimizer \nfrom .config import Config\nfrom .pattern import *\n\n" ++
    "__version__ = \"0.1.0\""

/-- The metadata of one build: version and long description. -/
structure Metadata where
  version : String
  longDescription : String
  deriving Inhabited

/-- The metadata from a read-me text and an initialization text (none when the file is
absent). -/
def metadata (readme initText : Option String) : Metadata :=
  let longDescription := match readme with
    | some r => String.ofList (Version.universalNewlines r.toList)
    | none => ""
  { version := Version.normalize (Version.declared initText), longDescription }

end Package

end OnnxFusion
