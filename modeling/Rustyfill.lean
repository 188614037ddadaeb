import Rustyfill.Secondary.Runs
import Rustyfill.Slotmap.Runs
import Rustyfill.Slotmap.Reserve
import Rustyfill.Slotmap.Disjoint
import Rustyfill.Interner.Growth
import Rustyfill.Interner.Unique
import Rustyfill.Interner.Pruning
import Rustyfill.OnceBox
import Rustyfill.Arc.Counts
import Rustyfill.Errors.Context
import Rustyfill.Errors.Push
import Rustyfill.Errors.Visit
import Rustyfill.Errors.Markers
import Rustyfill.Errors.Matches
import Rustyfill.Errors.Faithful
import Rustyfill.Maps.ConcurrentHashMap
import Rustyfill.Maps.DashMap
import Rustyfill.Maps.Growth
import Rustyfill.Maps.HashMap
import Rustyfill.Maps.IterRuns
import Rustyfill.Maps.Shrink
import Rustyfill.Format.Wrapping
import Rustyfill.Collections.Within
import Rustyfill.Collections.Collected
import Rustyfill.BTree.Vacant
import Rustyfill.BTree.Agreement
import Rustyfill.Collections.Shrink
import Rustyfill.Collections.LinkedList
import Rustyfill.PathBuf.Outcomes
import Rustyfill.PathBuf.Extensions
import Rustyfill.Random.Runs
import Rustyfill.Cloning.Accounts
import Rustyfill.DocJson.Mirror
import Rustyfill.DocJson.Resolution
import Rustyfill.DocJson.ModulePath
import Rustyfill.DocJson.DefinitionFidelity
import Rustyfill.DocJson.Routing
import Rustyfill.DocJson.FileAgreement
import Rustyfill.DocJson.ExtractRoutes
import Rustyfill.Format.Segments
import Rustyfill.Collections.Resumed
import Rustyfill.Maps.Promises
import Rustyfill.Maps.DashServed
