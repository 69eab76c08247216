import LuaBytecode.Main
import LuaBytecode.Proofs.Cache
import LuaBytecode.Proofs.Chunk.Delimited
import LuaBytecode.Proofs.Chunk.Environment
import LuaBytecode.Proofs.Chunk.Refused
import LuaBytecode.Proofs.Chunk.Stripped
import LuaBytecode.Proofs.Closing.Records
import LuaBytecode.Proofs.Command.Precedence
import LuaBytecode.Proofs.Execution.Compiled
import LuaBytecode.Proofs.Execution.Evaluation
import LuaBytecode.Proofs.Faultless
import LuaBytecode.Proofs.Folding
import LuaBytecode.Proofs.Grammar.Precedence
import LuaBytecode.Proofs.Merging
import LuaBytecode.Proofs.Placement.Compiled
import LuaBytecode.Proofs.Text.Extended
import LuaBytecode.Proofs.Tree.Inspect
import LuaBytecode.Proofs.Tree.Yaml
