import CLangProject.TinyStack
import CLangProject.TinyText
import CLangProject.TopDownRun
import CLangProject.HblTree
import CLangProject.WblTree
import CLangProject.WsmxTree
import CLangProject.IntvTree
import CLangProject.OrRFind
import CLangProject.SegmTree
import CLangProject.ExceptReturn
import CLangProject.AbRepeat
import CLangProject.PerfHash
import CLangProject.UnionFindRun
import CLangProject.ArNTrie
import CLangProject.LiNRun
import CLangProject.CircListDelete
import CLangProject.DoubleListCut
import CLangProject.SparseMatrixFree
import CLangProject.OpTree
import CLangProject.TrivTree
import CLangProject.HashTables
import CLangProject.MinQueue
import CLangProject.BinoRun
import CLangProject.GraphRun
import CLangProject.ShdStack
import CLangProject.RbInsert
import CLangProject.ArenaFree
import CLangProject.Atom
import CLangProject.Resize
import CLangProject.FiboShape
import CLangProject.WsumDelete
import CLangProject.TearDown
