import Lean4Core.Basic
import Lean4Core.Data.RBNode
import Lean4Core.Data.HashMap
import Lean4Core.Data.SMap
import Lean4Core.Data.KVMap
import Lean4Core.Environment
import Lean4Core.Registry
import Lean4Core.Import.ModuleGraph
import Lean4Core.Import.Load
import Lean4Core.Import.Extensions
import Lean4Core.Import.Declarations
import Lean4Core.Runs
import Lean4Core.SeparateCompilation
import Lean4Core.Compiler.Expr
import Lean4Core.Compiler.Specialize
import Lean4Core.Compiler.SpecInfo
import Lean4Core.Compiler.SpecCtx
import Lean4Core.Compiler.SpecPreprocess
import Lean4Core.Compiler.SpecNewDecl
import Lean4Core.Compiler.SpecVisit
import Lean4Core.Compiler.SpecPass
